import IpfsShard.Bitswap.Sound

/-! Which blocks are accepted. A put is made only for a want in the map, with a block that
has the digest in its CID, and takes the want out; so a want has one put at most. -/

namespace IpfsShard.Bitswap
open Codec Runs

variable {M : Multiformats} {s t : State} {e : Event} {out o : List Effect} {ps rs : List Nat}

/-- Puts were made for the wants `ps`, and `rs` were resolved: a want that a put was made for
is out of the map, one with a handler had its put, and one that was resolved is with no
handler. -/
structure Accounted (s : State) (ps rs : List Nat) : Prop where
  putOnce : ps.Nodup
  putMade : ∀ d ∈ ps, s.origin d ≠ none
  putGone : ∀ d ∈ ps, ∀ key p, s.pendingWants.lookup key = some p → p.deferred ≠ d
  storesPut : ∀ i cid data p, s.stores i = some (cid, data, p) → p.deferred ∈ ps
  resolvedOnce : rs.Nodup
  resolvedPut : ∀ d ∈ rs, d ∈ ps
  resolvedGone : ∀ d ∈ rs, ∀ i cid data p, s.stores i = some (cid, data, p) → p.deferred ≠ d

theorem accounted_init : Accounted {} [] [] := by
  constructor <;> simp [State.stores]

namespace Accounted

theorem quiet (h : Accounted s ps rs) (horigin : ∀ d, s.origin d ≠ none → t.origin d ≠ none)
    (hmap : ∀ key p, t.pendingWants.lookup key = some p →
      s.pendingWants.lookup key = some p ∨ s.origin p.deferred = none)
    (hstores : ∀ i, t.stores i = s.stores i) : Accounted t ps rs where
  putOnce := h.putOnce
  putMade d hd := horigin d (h.putMade d hd)
  putGone d hd key p hp := by
    rcases hmap key p hp with hp | hp
    · exact h.putGone d hd key p hp
    · rintro rfl
      exact h.putMade _ hd hp
  storesPut i := by simpa only [hstores] using h.storesPut i
  resolvedOnce := h.resolvedOnce
  resolvedPut := h.resolvedPut
  resolvedGone d hd i := by simpa only [hstores] using h.resolvedGone d hd i

theorem silent (h : Accounted s ps rs) (hp : puts o = []) (hr : resolutions o = []) :
    Accounted s (ps ++ puts o) (rs ++ resolutions o) := by
  rwa [hp, hr, List.append_nil, List.append_nil]

theorem take (h : Accounted s ps rs) (hs : Sound M s) {i : Nat} {handlers : List Handler}
    {key : String} {cid : CID} {data : Bytes} {pending : PendingWant}
    (hp : s.pendingWants.lookup key = some pending)
    (hst : ∀ j, ({ s with handlers } : State).stores j =
      if i = j then some (cid, data, pending) else s.stores j) :
    Accounted { s with pendingWants := s.pendingWants.erase key, handlers }
      (ps ++ [pending.deferred]) rs := by
  have hnew : pending.deferred ∉ ps := fun hd => h.putGone _ hd key pending hp rfl
  obtain ⟨-, signal, hx⟩ := hs.entry key pending hp
  constructor
  case putOnce =>
    exact List.nodup_append_comm.mp (List.nodup_cons.mpr ⟨hnew, h.putOnce⟩)
  case putMade =>
    intro d hd
    rcases List.mem_append.mp hd with hd | hd
    · exact h.putMade d hd
    · rw [List.mem_singleton.mp hd]
      simp [State.origin, hx]
  case putGone =>
    intro d hd key' p hp'
    obtain ⟨hne, hp'⟩ := Table.lookup_erase_iff.mp hp'
    rcases List.mem_append.mp hd with hd | hd
    · exact h.putGone d hd key' p hp'
    · rw [List.mem_singleton.mp hd]
      exact fun hd => hne (hs.key_unique hp' hp hd)
  case storesPut =>
    intro j c data' p hj
    replace hj := (hst j).symm.trans hj
    split_ifs at hj with hij
    · cases hj
      simp
    · exact List.mem_append_left _ (h.storesPut j c data' p hj)
  case resolvedPut =>
    exact fun d hd => List.mem_append_left _ (h.resolvedPut d hd)
  case resolvedGone =>
    intro d hd j c data' p hj
    replace hj := (hst j).symm.trans hj
    split_ifs at hj with hij
    · cases hj
      rintro rfl
      exact hnew (h.resolvedPut _ hd)
    · exact h.resolvedGone d hd j c data' p hj
  case resolvedOnce => exact h.resolvedOnce

theorem release (h : Accounted s ps rs) (hs : Sound M s) {i : Nat} {handlers : List Handler}
    {cid : CID} {data : Bytes} {pending : PendingWant}
    (hi : s.stores i = some (cid, data, pending))
    (hst : ∀ j, ({ s with handlers } : State).stores j = if i = j then none else s.stores j) :
    Accounted { s with
      deferreds := settle s.deferreds pending.deferred (.resolved data)
      handlers } ps (rs ++ [pending.deferred]) := by
  have hnew : pending.deferred ∉ rs := fun hd => h.resolvedGone _ hd i cid data pending hi rfl
  constructor
  case putMade =>
    intro d hd
    rw [State.origin, origin_settle]
    exact h.putMade d hd
  case storesPut =>
    intro j c data' p hj
    exact h.storesPut j c data' p (stores_of_released hst hj).2
  case resolvedOnce =>
    exact List.nodup_append_comm.mp (List.nodup_cons.mpr ⟨hnew, h.resolvedOnce⟩)
  case resolvedPut =>
    intro d hd
    rcases List.mem_append.mp hd with hd | hd
    · exact h.resolvedPut d hd
    · rw [List.mem_singleton.mp hd]
      exact h.storesPut i cid data pending hi
  case resolvedGone =>
    intro d hd j c data' p hj
    obtain ⟨hij, hj⟩ := stores_of_released hst hj
    rcases List.mem_append.mp hd with hd | hd
    · exact h.resolvedGone d hd j c data' p hj
    · rw [List.mem_singleton.mp hd]
      exact fun hd => hij (hs.once i j cid c data data' pending p hi hj hd.symm)
  case putOnce => exact h.putOnce
  case putGone => exact h.putGone

end Accounted

theorem effects_settles (ds : List Nat) (err : WantError) :
    puts (ds.map (.settle · (.rejected err))) = [] ∧
      resolutions (ds.map (.settle · (.rejected err))) = [] := by
  simp [puts, resolutions]

theorem abort_effects (s : State) (signal : Nat) :
    (s.abort signal).2 =
      ((s.fired signal).map (·.deferred)).map (.settle · (.rejected .aborted)) := by
  rw [List.map_map]
  rfl

theorem step_puts (h : Step M s e t o) : puts o = [] ∨ ∃ cid data p,
    o = [.put cid data p] ∧ cid.multihash = M.sha256 data ∧
      s.pendingWants.lookup (M.toString cid) = some p := by
  cases h with
  | join _ => exact Or.inl rfl
  | create _ => exact Or.inl rfl
  | abort _ => exact Or.inl (by rw [abort_effects]; exact (effects_settles ..).1)
  | pass _ ho _ _ _ _ => exact Or.inl ho
  | take hcid hp _ _ =>
    exact Or.inr ⟨_, _, _, rfl, (M.builtFrom_iff _ _).mp (prefixToCID_builtFrom hcid), hp⟩
  | release _ _ ho _ => exact Or.inl ho
  | stop => exact Or.inl (effects_settles ..).1

theorem accounted_step (h : Accounted s (puts out) (resolutions out)) (hs : Sound M s)
    (hstep : Step M s e t o) : Accounted t (puts (out ++ o)) (resolutions (out ++ o)) := by
  rw [puts_append, resolutions_append]
  cases hstep with
  | join _ =>
    refine Accounted.silent ?_ rfl rfl
    exact h.quiet (fun _ h => h) (fun _ _ h => Or.inl h) fun _ => rfl
  | @create cid signal _ =>
    refine Accounted.silent (h.quiet ?_ ?_ fun _ => rfl) rfl rfl
    · intro d hd
      obtain ⟨r, hr⟩ := Option.ne_none_iff_exists'.mp hd
      rw [State.origin, origin_create.mpr (Or.inl hr)]
      simp
    · intro key p hp
      by_cases hk : key = M.toString cid
      · subst hk
        rw [AList.lookup_insert, Option.some.injEq] at hp
        subst hp
        exact Or.inr (by simp [State.origin])
      · exact Or.inl (by rwa [AList.lookup_insert_ne hk] at hp)
  | @abort signal _ =>
    obtain ⟨hp, hr⟩ := effects_settles ((s.fired signal).map (·.deferred)) .aborted
    rw [abort_eq, abort_effects]
    refine Accounted.silent (h.quiet ?_ ?_ fun _ => rfl) hp hr
    · intro d
      simp only [State.origin, origin_settleAll]
      exact fun h => h
    · exact fun key p hp => Or.inl (hs.fired_lookup hp).1
  | pass hst hp hr _ _ _ =>
    refine Accounted.silent ?_ hp hr
    exact h.quiet (fun _ h => h) (fun _ _ h => Or.inl h) hst
  | take hcid hp _ hst =>
    rw [show resolutions [Effect.put _ _ _] = [] from rfl, List.append_nil]
    exact h.take hs hp hst
  | release hi hst hp hr =>
    rw [hp, hr, List.append_nil]
    exact h.release hs hi hst
  | stop =>
    obtain ⟨hp, hr⟩ := effects_settles (s.pendingWants.entries.reverse.map (·.2.deferred)) .stopped
    refine Accounted.silent (h.quiet ?_ ?_ fun _ => rfl) hp hr
    · intro d
      simp only [State.origin, State.stop, origin_settleAll]
      exact fun h => h
    · simp [State.stop]

theorem accounted_of_run {ok : State → Event → Prop} {es : List Event}
    (h : (wants M).Run ok es s out) : Accounted s (puts out) (resolutions out) := by
  have hboth := h.invariant
    (I := fun s out => Sound M s ∧ Accounted s (puts out) (resolutions out))
    ⟨sound_init, accounted_init⟩ ?_
  · exact hboth.2
  · intro s e t out o hs _ hstep
    exact ⟨hs.1.step (step_cases hstep), accounted_step hs.2 hs.1 (step_cases hstep)⟩

theorem Sound.call_resolved (hs : Sound M s) (hinj : Function.Injective M.toString) {c : Call}
    (hc : c ∈ s.calls) {x : Deferred} {data : Bytes} (hx : s.deferreds[c.deferred]? = some x)
    (hr : x.settlement = .resolved data) : M.BuiltFrom data c.cid := by
  obtain ⟨cid, hkey, hhash⟩ := hs.resolved _ x data hx hr
  obtain ⟨cid', signal, ho, hkey'⟩ := hs.call c hc
  simp only [State.origin, hx, Option.map_some, Option.some.injEq, Prod.mk.injEq] at ho
  rw [M.builtFrom_iff, ← hinj (hkey.trans ((congrArg M.toString ho.1).trans hkey'))]
  exact hhash

/-- In every state of every run: a put is made only with a block that has the digest in its
CID, and for a want under its key; over the run each want has one put and one resolution
at most; and a caller gets only data that his CID is built from. -/
theorem accepts_only_wanted (hinj : Function.Injective M.toString) {es : List Event}
    (h : (wants M).Run System.any es s out) :
    (∀ e t o, s.step M e = some (t, o) → ∀ cid data p, Effect.put cid data p ∈ o →
      cid.multihash = M.sha256 data ∧ s.pendingWants.lookup (M.toString cid) = some p) ∧
    (puts out).Nodup ∧ (resolutions out).Nodup ∧
    ∀ c ∈ s.calls, ∀ x data, s.deferreds[c.deferred]? = some x →
      x.settlement = .resolved data → M.BuiltFrom data c.cid := by
  have hs := sound_of_run h
  have hacc := accounted_of_run h
  refine ⟨?_, hacc.putOnce, hacc.resolvedOnce, ?_⟩
  · intro e t o hstep cid data p hmem
    rcases step_puts (step_cases hstep) with hnone | ⟨cid', data', p', rfl, hhash, hp⟩
    · have hd : p.deferred ∈ puts o := List.mem_filterMap.mpr ⟨_, hmem, rfl⟩
      simp [hnone] at hd
    · cases List.mem_singleton.mp hmem
      exact ⟨hhash, hp⟩
  · exact fun c hc x data hx hr => hs.call_resolved hinj hc hx hr

def deliveredTwice : List Event :=
  [.want Multiformats.emptyRaw (some 0), .want Multiformats.emptyRaw none,
    .message "a" emptyBlockMessage 9, .message "b" emptyBlockMessage 9, .hashed 0, .hashed 1,
    .stored 0]

open Multiformats in
theorem accepts_only_wanted_deliveredTwice : ∃ s out,
    (wants onEmptyBlock).Run System.any deliveredTwice s out ∧ (puts out).Nodup ∧
      (resolutions out).Nodup ∧ puts out = [0] ∧
      s.calls.map (·.deferred) = [0, 0] ∧ onEmptyBlock.BuiltFrom [] emptyRaw := by
  obtain ⟨s, out, hrun, hputs, hx, hcalls⟩ :=
    System.exists_run (T := wants onEmptyBlock) deliveredTwice
    (p := fun r => puts r.2 = [0] ∧
      r.1.deferreds[0]? = some ⟨emptyRaw, some 0, .resolved []⟩ ∧
      r.1.calls = [⟨emptyRaw, some 0, 0⟩, ⟨emptyRaw, none, 0⟩]) (by decide +kernel)
  obtain ⟨-, hp, hr, hbuilt⟩ := accepts_only_wanted cidText_injective hrun
  simp only at hx hcalls
  refine ⟨s, out, hrun, hp, hr, hputs, by rw [hcalls]; rfl, ?_⟩
  exact hbuilt ⟨emptyRaw, none, 0⟩ (by rw [hcalls]; simp) _ [] hx rfl

end IpfsShard.Bitswap
