import IpfsShard.Backup.Selected
import IpfsShard.Loops.BackupBootstrap

/-! The backup bootstrap loop on a datastore that outlives the node: where the addresses come from
that it dials and saves, over any restarts. -/

namespace IpfsShard.Loops
open Backup Runs

/-- `arrays` is what a load may find under the key of the backup peers: what may have been there at
the start, and what has been put there since, in whatever order the puts are carried out. -/
structure Backups (α : Type) where
  loop : Async.State (BackupLoop α) (BackupCall α)
  officialBootstrapAddrs : List α
  arrays : List (List String)

/-- A node may end at any time. The next one has its own bootstrap peers. -/
inductive BackupsEvent (α : Type) where
  | loop (e : Async.Event (BackupEvent α) BackupResult)
  | restart (officialBootstrapAddrs : List α)

def Call.array? {α : Type} : Call α → Option (List String)
  | saveBackupPeers stored => some stored
  | _ => none

def Backups.finds {α : Type} (s : Backups α) : Async.Event (BackupEvent α) BackupResult → Bool
  | .resume _ (.loaded (some stored)) => s.arrays.contains stored
  | _ => true

section
variable {α : Type} [DecidableEq α] (M : Multiaddrs α)

def Backups.step (s : Backups α) : BackupsEvent α → Option (Backups α × List (Call α))
  | .loop e =>
    if s.finds e then
      ((backupBootstrapLoop M s.officialBootstrapAddrs).system.step s.loop e).map fun r =>
        ({ s with loop := r.1, arrays := s.arrays ++ r.2.filterMap Call.array? }, r.2)
    else none
  | .restart officialBootstrapAddrs =>
    some ({ s with loop := (backupBootstrapLoop M officialBootstrapAddrs).system.init
                   officialBootstrapAddrs }, [])

def backups (officialBootstrapAddrs : List α) (arrays : List (List String)) :
    System (Backups α) (BackupsEvent α) (Call α) where
  init := ⟨(backupBootstrapLoop M officialBootstrapAddrs).system.init, officialBootstrapAddrs,
    arrays⟩
  step := Backups.step M

end

section
variable {α : Type} (M : Multiaddrs α) (officialBootstrapAddrs : List α)
  (arrays : List (List String)) (es : List (BackupsEvent α))

def officialAfter : List α :=
  (es.reverse.findSome? fun e =>
    match e with
    | .restart officialBootstrapAddrs => some officialBootstrapAddrs
    | .loop _ => none).getD officialBootstrapAddrs

/-- A save round has found the address at a connection, and it was not one of a bootstrap peer. -/
def Met (addr : α) : Prop :=
  ∃ before round after, es = before ++ .loop (.on (.saveTick round)) :: after ∧
    addr ∈ round.connectedAddrs ∧ ¬ Official M (officialAfter officialBootstrapAddrs before) addr

/-- The address was in the datastore at the start, or a save round has met it. -/
def Known (addr : α) : Prop :=
  (∃ stored ∈ arrays, addr ∈ loadBackupPeers M (some stored)) ∨
    Met M officialBootstrapAddrs es addr

end

/-- What the loop dials has a peer id, what it saves fits the bound, and all of it is of the kind
`P`. -/
inductive Draws {α : Type} (M : Multiaddrs α) (P : α → Prop) : Call α → Prop where
  | load : Draws M P .loadBackupPeers
  | dial {addr : α} : (M.peerId addr).isSome = true → P addr → Draws M P (.dial addr)
  | save {peers : List α} : peers.length ≤ maxBackupPeers → (∀ addr ∈ peers, P addr) →
      Draws M P (.saveBackupPeers (toStored M peers))

def BackupCall.addrs {α : Type} : BackupCall α → List α
  | startup | loading => []
  | dialing rest => rest
  | saving peersToSave => peersToSave

structure Leaves {α : Type} (M : Multiaddrs α) (P : α → Prop) (s : BackupLoop α)
    (calls : List (Call α)) (suspended : List (BackupCall α)) : Prop where
  previouslySaved : ∀ addr ∈ s.previouslySaved, P addr
  calls : ∀ call ∈ calls, Draws M P call
  suspended : ∀ q ∈ suspended, ∀ addr ∈ q.addrs, P addr

structure Holds {α : Type} (M : Multiaddrs α) (P : α → Prop) (s : Backups α) : Prop where
  arrays : ∀ stored ∈ s.arrays, ∀ addr ∈ loadBackupPeers M (some stored), P addr
  previouslySaved : ∀ addr ∈ s.loop.shared.previouslySaved, P addr
  suspended : ∀ q, some q ∈ s.loop.suspended → ∀ addr ∈ q.addrs, P addr

section
variable {α : Type} {M : Multiaddrs α} {P P' : α → Prop} {official : List α}
  {arrays : List (List String)} {es es' : List (BackupsEvent α)} {addr : α}

theorem Met.append (h : Met M official es addr) (es' : List (BackupsEvent α)) :
    Met M official (es ++ es') addr := by
  obtain ⟨before, round, after, rfl, hmem, hofficial⟩ := h
  exact ⟨before, round, after ++ es', by simp, hmem, hofficial⟩

theorem Known.append (h : Known M official arrays es addr) (es' : List (BackupsEvent α)) :
    Known M official arrays (es ++ es') addr :=
  h.imp_right (·.append es')

theorem met_saveTick {round : Round α} (hmem : addr ∈ round.connectedAddrs)
    (hofficial : ¬ Official M (officialAfter official es) addr) :
    Met M official (es ++ [.loop (.on (.saveTick round))]) addr :=
  ⟨es, round, [], rfl, hmem, hofficial⟩

theorem officialAfter_loop (e : Async.Event (BackupEvent α) BackupResult) :
    officialAfter official (es ++ [.loop e]) = officialAfter official es := by
  rw [officialAfter, officialAfter, List.reverse_append, List.reverse_singleton,
    List.singleton_append, List.findSome?_cons]

theorem officialAfter_restart (official' : List α) :
    officialAfter official (es ++ [.restart official']) = official' := by
  rw [officialAfter, List.reverse_append, List.reverse_singleton, List.singleton_append,
    List.findSome?_cons]
  rfl

theorem Draws.mono {call : Call α} (h : Draws M P call) (himp : ∀ addr, P addr → P' addr) :
    Draws M P' call := by
  cases h with
  | load => exact .load
  | dial hid hP => exact .dial hid (himp _ hP)
  | save hlength hP => exact .save hlength fun addr haddr => himp addr (hP addr haddr)

theorem Holds.mono {s : Backups α} (h : Holds M P s) (himp : ∀ addr, P addr → P' addr) :
    Holds M P' s where
  arrays stored hstored addr haddr := himp addr (h.arrays stored hstored addr haddr)
  previouslySaved addr haddr := himp addr (h.previouslySaved addr haddr)
  suspended q hq addr haddr := himp addr (h.suspended q hq addr haddr)

theorem Leaves.nothing {s : BackupLoop α} (hs : ∀ addr ∈ s.previouslySaved, P addr) :
    Leaves M P s [] [] := ⟨hs, List.forall_mem_nil _, List.forall_mem_nil _⟩

theorem dialBackupPeers_leaves {s : BackupLoop α} (hs : ∀ addr ∈ s.previouslySaved, P addr)
    (stopped : Bool) {peers : List α} (h : ∀ addr ∈ peers, P addr) :
    Leaves M P s (dialBackupPeers M stopped peers).1
      (dialBackupPeers M stopped peers).2.toList := by
  induction peers with
  | nil => exact .nothing hs
  | cons peerAddr rest ih =>
    obtain ⟨hfirst, hrest⟩ := List.forall_mem_cons.mp h
    rw [dialBackupPeers]
    split_ifs
    · exact .nothing hs
    · cases hid : M.peerId peerAddr with
      | none => exact ih hrest
      | some peerId =>
        have hsome : (M.peerId peerAddr).isSome = true := by
          rw [hid]
          rfl
        exact ⟨hs, List.forall_mem_singleton.mpr (.dial hsome hfirst),
          List.forall_mem_singleton.mpr hrest⟩

theorem bootstrapRound_leaves {s : BackupLoop α} (hs : ∀ addr ∈ s.previouslySaved, P addr)
    (stopped : Bool) (connections : Nat) :
    Leaves M P s (bootstrapRound stopped connections).1
      (bootstrapRound stopped connections : List (Call α) × _).2.toList := by
  unfold bootstrapRound
  split_ifs
  · exact .nothing hs
  · exact .nothing hs
  · exact ⟨hs, List.forall_mem_singleton.mpr .load,
      List.forall_mem_singleton.mpr (List.forall_mem_nil _)⟩

theorem mem_selected {connected shuffled saved : List α} {max : Nat}
    (hshuffled : shuffled.Perm connected)
    (h : addr ∈ selectPeersToSave M connected shuffled official saved max) :
    (addr ∈ connected ∧ ¬ Official M official addr) ∨ addr ∈ saved := by
  by_cases hne : connected = []
  · rw [hne, selectPeersToSave_nil] at h
    cases h
  rw [selectPeersToSave_eq hne, List.mem_append] at h
  refine h.imp (fun hfirst => ?_) fun hrest => ?_
  · obtain ⟨hmem, heligible⟩ := List.mem_filter.mp (List.mem_of_mem_take hfirst)
    exact ⟨hshuffled.mem_iff.mp hmem, eligible_iff.mp heligible⟩
  · exact (Fresh.fresh_sublist _ _).subset (List.mem_of_mem_take hrest)

theorem loaded_of_finds {s : Backups α} (h : Holds M P s) {i : Nat} {result : BackupResult}
    (hfinds : s.finds (.resume i result) = true) {stored : Option (List String)}
    (hresult : result = .loaded stored) : ∀ addr ∈ loadBackupPeers M stored, P addr := by
  subst hresult
  cases stored with
  | none => exact List.forall_mem_nil _
  | some stored => exact h.arrays stored (List.contains_iff_mem.mp hfinds)

theorem Leaves.holds {s : Backups α} (h : Holds M P s)
    (hparse : ∀ addr, M.parse (M.toString addr) = some addr) {shared : BackupLoop α}
    {calls : List (Call α)} {suspended : List (BackupCall α)}
    (hleaves : Leaves M P shared calls suspended) {all : List (Option (BackupCall α))}
    (hall : ∀ q, some q ∈ all → q ∈ suspended ∨ some q ∈ s.loop.suspended) :
    Holds M P { s with
      loop := ⟨shared, all⟩
      arrays := s.arrays ++ calls.filterMap Call.array? } where
  arrays := by
    refine List.forall_mem_append.mpr ⟨h.arrays, fun stored hstored => ?_⟩
    obtain ⟨call, hcall, harray⟩ := List.mem_filterMap.mp hstored
    cases hleaves.calls call hcall with
    | load => cases harray
    | dial _ _ => cases harray
    | save _ hpeers =>
      cases harray
      rw [loadBackupPeers_toStored hparse]
      exact hpeers
  previouslySaved := hleaves.previouslySaved
  suspended q hq := (hall q hq).elim (hleaves.suspended q) (h.suspended q)

variable [DecidableEq α]

theorem saveRound_leaves {s : BackupLoop α} {round : Round α}
    {r : List (Call α) × Option (BackupCall α)} (hr : saveRound M official s round = some r)
    (hs : ∀ addr ∈ s.previouslySaved, P addr)
    (hmet : ∀ addr ∈ round.connectedAddrs, ¬ Official M official addr → P addr) :
    Leaves M P s r.1 r.2.toList := by
  unfold saveRound at hr
  split_ifs at hr with hstopped hshuffled
  · cases hr
    exact .nothing hs
  · cases hr
    have hlength : (selectPeersToSave M round.connectedAddrs round.shuffled official
        s.previouslySaved maxBackupPeers).length ≤ maxBackupPeers :=
      length_selectPeersToSave_le round.shuffled official s.previouslySaved
    have hselected : ∀ addr ∈ selectPeersToSave M round.connectedAddrs round.shuffled official
        s.previouslySaved maxBackupPeers, P addr := by
      intro addr haddr
      rcases mem_selected hshuffled haddr with ⟨hmem, hofficial⟩ | hmem
      · exact hmet addr hmem hofficial
      · exact hs addr hmem
    exact ⟨hs, List.forall_mem_singleton.mpr (.save hlength hselected),
      List.forall_mem_singleton.mpr hselected⟩

theorem on_leaves {s : BackupLoop α} {e : BackupEvent α}
    {r : BackupLoop α × List (Call α) × List (BackupCall α)}
    (hr : (backupBootstrapLoop M official).on s e = some r)
    (hs : ∀ addr ∈ s.previouslySaved, P addr)
    (hmet : ∀ round, e = .saveTick round → ∀ addr ∈ round.connectedAddrs,
      ¬ Official M official addr → P addr) : Leaves M P r.1 r.2.1 r.2.2 := by
  cases e with
  | start =>
    simp only [backupBootstrapLoop] at hr
    split_ifs at hr
    cases hr
    exact ⟨hs, List.forall_mem_singleton.mpr .load,
      List.forall_mem_singleton.mpr (List.forall_mem_nil _)⟩
  | bootstrapTick connections =>
    simp only [backupBootstrapLoop] at hr
    split_ifs at hr
    cases hr
    exact bootstrapRound_leaves hs s.stopped connections
  | saveTick round =>
    simp only [backupBootstrapLoop] at hr
    split_ifs at hr
    obtain ⟨r', hr', rfl⟩ := Option.map_eq_some_iff.mp hr
    exact saveRound_leaves hr' hs (hmet round rfl)
  | disconnect connections =>
    simp only [backupBootstrapLoop] at hr
    split_ifs at hr
    · cases hr
      exact bootstrapRound_leaves hs s.stopped connections
    · cases hr
      exact .nothing hs
  | stop =>
    simp only [backupBootstrapLoop] at hr
    split_ifs at hr
    · cases hr
      exact .nothing hs
    · cases hr
      exact .nothing hs

theorem resume_leaves {s : BackupLoop α} {q : BackupCall α} {result : BackupResult}
    {r : BackupLoop α × List (Call α) × Option (BackupCall α)}
    (hr : (backupBootstrapLoop M official).resume s q result = some r)
    (hs : ∀ addr ∈ s.previouslySaved, P addr) (hq : ∀ addr ∈ q.addrs, P addr)
    (hfound : ∀ stored, result = .loaded stored → ∀ addr ∈ loadBackupPeers M stored, P addr) :
    Leaves M P r.1 r.2.1 r.2.2.toList := by
  cases q with
  | startup =>
    cases result with
    | loaded stored =>
      cases hr
      exact .nothing (hfound stored rfl)
    | settled => cases hr
  | loading =>
    cases result with
    | loaded stored =>
      cases hr
      exact dialBackupPeers_leaves hs s.stopped (hfound stored rfl)
    | settled => cases hr
  | dialing rest =>
    cases result with
    | loaded stored => cases hr
    | settled =>
      cases hr
      exact dialBackupPeers_leaves hs s.stopped hq
  | saving peersToSave =>
    cases result with
    | loaded stored => cases hr
    | settled =>
      cases hr
      exact .nothing hq

theorem step_holds (hparse : ∀ addr, M.parse (M.toString addr) = some addr) {s t : Backups α}
    {e : BackupsEvent α} {o : List (Call α)} (h : Holds M P s)
    (hmet : ∀ round, e = .loop (.on (.saveTick round)) → ∀ addr ∈ round.connectedAddrs,
      ¬ Official M s.officialBootstrapAddrs addr → P addr)
    (hstep : s.step M e = some (t, o)) : Holds M P t ∧ ∀ call ∈ o, Draws M P call := by
  cases e with
  | restart official =>
    cases hstep
    refine ⟨⟨h.arrays, List.forall_mem_nil _, fun q hq => ?_⟩, List.forall_mem_nil _⟩
    exact absurd hq List.not_mem_nil
  | loop e =>
    simp only [Backups.step] at hstep
    split_ifs at hstep with hfinds
    obtain ⟨r, hr, heq⟩ := Option.map_eq_some_iff.mp hstep
    cases heq
    cases e with
    | on e =>
      obtain ⟨r', hr', heq⟩ := Option.map_eq_some_iff.mp hr
      cases heq
      have hleaves := on_leaves hr' h.previouslySaved fun round he => hmet round (by rw [he])
      refine ⟨hleaves.holds h hparse fun q hq => ?_, hleaves.calls⟩
      rcases List.mem_append.mp hq with hold | hnew
      · exact Or.inr hold
      · obtain ⟨q', hq', heq⟩ := List.mem_map.mp hnew
        exact Or.inl (Option.some.inj heq ▸ hq')
    | resume i result =>
      simp only [Async.Program.system] at hr
      split at hr
      · rename_i q hq
        obtain ⟨r', hr', heq⟩ := Option.map_eq_some_iff.mp hr
        cases heq
        have hleaves := resume_leaves hr' h.previouslySaved
          (h.suspended q (List.mem_of_getElem? hq)) fun stored => loaded_of_finds h hfinds
        refine ⟨hleaves.holds h hparse fun q' hq' => ?_, hleaves.calls⟩
        rcases List.mem_or_eq_of_mem_set hq' with hold | hnew
        · exact Or.inr hold
        · exact Or.inl (Option.mem_toList.mpr hnew.symm)
      · cases hr

theorem step_official {s t : Backups α} {e : BackupsEvent α} {o : List (Call α)}
    (hs : s.officialBootstrapAddrs = officialAfter official es)
    (hstep : s.step M e = some (t, o)) :
    t.officialBootstrapAddrs = officialAfter official (es ++ [e]) := by
  cases e with
  | restart official' =>
    cases hstep
    exact (officialAfter_restart official').symm
  | loop e =>
    simp only [Backups.step] at hstep
    split_ifs at hstep
    obtain ⟨r, -, heq⟩ := Option.map_eq_some_iff.mp hstep
    cases heq
    exact hs.trans (officialAfter_loop e).symm

/-- Over any restarts, the loop dials and saves only addresses that were in the datastore at the
start or that a save round has met, of peers that were not official then. -/
theorem backupCalls_of_run (hparse : ∀ addr, M.parse (M.toString addr) = some addr)
    {s : Backups α} {out : List (Call α)}
    (h : (backups M official arrays).Run System.any es s out) :
    ∀ call ∈ out, Draws M (Known M official arrays es) call := by
  have hall : (s.officialBootstrapAddrs = officialAfter official es ∧
      Holds M (Known M official arrays es) s) ∧
      ∀ call ∈ out, Draws M (Known M official arrays es) call := by
    induction h with
    | start =>
      have hstart : Holds M (Known M official arrays []) (backups M official arrays).init :=
        ⟨fun stored hstored addr haddr => Or.inl ⟨stored, hstored, haddr⟩, List.forall_mem_nil _,
          fun q hq => absurd hq List.not_mem_nil⟩
      exact ⟨⟨rfl, hstart⟩, List.forall_mem_nil _⟩
    | @step es s t e out o _ _ hs ih =>
      obtain ⟨⟨hofficial, hholds⟩, hcalls⟩ := ih
      have hmore : ∀ addr, Known M official arrays es addr →
          Known M official arrays (es ++ [e]) addr := fun addr h => h.append [e]
      have hnext := step_holds hparse (hholds.mono hmore) (e := e) ?_ hs
      · refine ⟨⟨step_official hofficial hs, hnext.1⟩, List.forall_mem_append.mpr ⟨?_, hnext.2⟩⟩
        exact fun call hcall => (hcalls call hcall).mono hmore
      · rintro round rfl addr hmem hnot
        exact Or.inr (met_saveTick hmem (hofficial ▸ hnot))
  exact hall.2

theorem backupCalls_of_run_restarted : ∃ s out,
    (backups onTwoAddrs [oneAddr] []).Run System.any
      [.loop (.on .start), .loop (.on (.saveTick ⟨[some oneAddr, some otherAddr],
          [otherAddr, oneAddr]⟩)), .restart [oneAddr], .loop (.on .start),
        .loop (.on (.bootstrapTick 0)), .loop (.resume 1 (.loaded (some [otherAddr])))] s out ∧
    out = [.loadBackupPeers, .saveBackupPeers [otherAddr], .loadBackupPeers, .loadBackupPeers,
      .dial otherAddr] ∧
    ∀ call ∈ out, Draws onTwoAddrs (Known onTwoAddrs [oneAddr] [] [.loop (.on .start),
      .loop (.on (.saveTick ⟨[some oneAddr, some otherAddr], [otherAddr, oneAddr]⟩)),
      .restart [oneAddr], .loop (.on .start), .loop (.on (.bootstrapTick 0)),
      .loop (.resume 1 (.loaded (some [otherAddr])))]) call := by
  obtain ⟨s, out, hrun, hout⟩ := System.exists_run (T := backups onTwoAddrs [oneAddr] [])
    [.loop (.on .start), .loop (.on (.saveTick ⟨[some oneAddr, some otherAddr],
        [otherAddr, oneAddr]⟩)), .restart [oneAddr], .loop (.on .start),
      .loop (.on (.bootstrapTick 0)), .loop (.resume 1 (.loaded (some [otherAddr])))]
    (p := fun r => r.2 = [.loadBackupPeers, .saveBackupPeers [otherAddr], .loadBackupPeers,
      .loadBackupPeers, .dial otherAddr]) (by decide +kernel)
  exact ⟨s, out, hrun, hout, backupCalls_of_run (fun _ => rfl) hrun⟩

end

end IpfsShard.Loops
