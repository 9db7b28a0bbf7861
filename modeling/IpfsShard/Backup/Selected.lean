import IpfsShard.Backup.SaveRounds
import IpfsShard.Lib.Fresh

/-! Which addresses `selectPeersToSave` selects: connections that are not official, in random
order and as they are, and behind them saved addresses with new peer ids. -/

namespace IpfsShard.Backup
open Fresh

section
variable {α : Type} (M : Multiaddrs α) (officialBootstrap : List α)

def Official (addr : α) : Prop := ∃ id ∈ M.peerIds officialBootstrap, M.peerId addr = some id

def eligible (addr : α) : Bool :=
  match M.peerId addr with
  | none => true
  | some peerId => !(M.peerIds officialBootstrap).contains peerId

def FullBefore (connected previouslySaved : List α) (max : Nat) : Prop :=
  connected ≠ [] → ∀ before addr after, previouslySaved = before ++ addr :: after →
    Official M officialBootstrap addr → (∀ b ∈ before, ¬ Official M officialBootstrap b) →
    max ≤ (connected.filter (eligible M officialBootstrap)).length +
      (newKeys M.peerId (M.peerIds (connected.filter (eligible M officialBootstrap))) before).length

/-- Every slot of the selection holds the address of another peer, which can be dialled: a
bootstrap round skips an address without a peer id. -/
structure Slots (connected previouslySaved : List α) (max : Nat) (selected : List α) : Prop where
  length_le : selected.length ≤ max
  taken : ∀ addr ∈ selected, addr ∈ connected ∨ addr ∈ previouslySaved
  dialable : ∀ addr ∈ selected, M.peerId addr ≠ none
  distinct : (M.peerIds selected).Nodup

end

variable {α : Type} {M : Multiaddrs α} {official connected shuffled saved result : List α}
  {ids : List String} {max : Nat} {addr : α}

theorem eligible_eq_false_iff : eligible M official addr = false ↔ Official M official addr := by
  unfold eligible Official
  cases M.peerId addr <;> simp

theorem eligible_iff : eligible M official addr = true ↔ ¬ Official M official addr := by
  rw [← eligible_eq_false_iff, Bool.not_eq_false]

theorem backfill_eq (hlength : result.length ≤ max) : backfill M max result ids saved =
    result ++ (fresh M.peerId ids saved).take (max - result.length) := by
  induction saved generalizing result ids with
  | nil => simp [backfill, fresh]
  | cons addr rest ih =>
    rw [backfill]
    by_cases hfull : result.length ≥ max
    · rw [if_pos hfull, Nat.sub_eq_zero_of_le hfull, List.take_zero, List.append_nil]
    rw [if_neg hfull]
    cases hpeer : M.peerId addr with
    | none =>
      rw [fresh_none hpeer]
      exact ih hlength
    | some peerId =>
      by_cases hknown : peerId ∈ ids
      · rw [fresh_seen hpeer hknown]
        simp only [if_pos (List.contains_iff_mem.mpr hknown)]
        exact ih hlength
      · have hlength' : (result ++ [addr]).length ≤ max := by
          rw [List.length_append, List.length_singleton]
          exact Nat.lt_of_not_le hfull
        have hroom : max - result.length = max - (result ++ [addr]).length + 1 := by
          rw [List.length_append, List.length_singleton] at hlength' ⊢
          omega
        rw [fresh_new hpeer hknown, hroom, List.take_succ_cons]
        simp only [if_neg (mt List.contains_iff_mem.mp hknown)]
        rw [ih hlength', List.append_assoc, List.singleton_append]

theorem selectPeersToSave_eq (hne : connected ≠ []) :
    selectPeersToSave M connected shuffled official saved max =
      (shuffled.filter (eligible M official)).take max ++
        (fresh M.peerId (M.peerIds (shuffled.filter (eligible M official))) saved).take
          (max - (shuffled.filter (eligible M official)).length) := by
  have hlen : ¬ connected.length = 0 := by simpa using hne
  simp only [selectPeersToSave, if_neg hlen]
  show (if ((shuffled.filter (eligible M official)).take max).length < max ∧ saved.length > 0 then
      backfill M max ((shuffled.filter (eligible M official)).take max)
        (M.peerIds ((shuffled.filter (eligible M official)).take max)) saved
    else (shuffled.filter (eligible M official)).take max) = _
  generalize shuffled.filter (eligible M official) = filtered
  by_cases hroom : filtered.length < max
  · have hall : filtered.take max = filtered := List.take_of_length_le (Nat.le_of_lt hroom)
    rw [hall]
    split_ifs with hfill
    · exact backfill_eq (Nat.le_of_lt hroom)
    · have hsaved : saved = [] := by simpa [hroom] using hfill
      rw [hsaved]
      simp [fresh]
  · have hfull : (filtered.take max).length = max := by
      rw [List.length_take]
      omega
    have hnone : max - filtered.length = 0 := Nat.sub_eq_zero_of_le (Nat.le_of_not_lt hroom)
    rw [if_neg fun h => Nat.lt_irrefl _ (hfull ▸ h.1), hnone, List.take_zero, List.append_nil]

theorem exists_first {p : α → Prop} [DecidablePred p] {l : List α} (h : ∃ a ∈ l, p a) :
    ∃ before a after, l = before ++ a :: after ∧ p a ∧ ∀ b ∈ before, ¬ p b := by
  induction l with
  | nil => simp at h
  | cons c l ih =>
    by_cases hc : p c
    · exact ⟨[], c, l, rfl, hc, List.forall_mem_nil _⟩
    · obtain ⟨a, ha, hpa⟩ := h
      have hl : a ∈ l := (List.mem_cons.mp ha).resolve_left fun hac => hc (hac ▸ hpa)
      obtain ⟨before, b, after, rfl, hb, hbefore⟩ := ih ⟨a, hl, hpa⟩
      exact ⟨c :: before, b, after, rfl, hb, List.forall_mem_cons.mpr ⟨hc, hbefore⟩⟩

theorem exists_fresh_official {before : List α} (hids : ∀ id ∈ ids, id ∉ M.peerIds official)
    (hofficial : Official M official addr) (hbefore : ∀ b ∈ before, ¬ Official M official b)
    (after : List α) : ∃ rest, fresh M.peerId ids (before ++ addr :: after) =
      fresh M.peerId ids before ++ addr :: rest := by
  obtain ⟨id, hid, hpeer⟩ := hofficial
  refine fresh_append_cons hpeer (fun hmem => hids id hmem hid) fun hmem => ?_
  obtain ⟨b, hb, hbpeer⟩ := List.mem_filterMap.mp hmem
  exact hbefore b hb ⟨id, hid, hbpeer⟩

theorem notOfficial_take_fresh_iff (hids : ∀ id ∈ ids, id ∉ M.peerIds official)
    (saved : List α) (room : Nat) :
    (∀ addr ∈ (fresh M.peerId ids saved).take room, ¬ Official M official addr) ↔
      ∀ before addr after, saved = before ++ addr :: after → Official M official addr →
        (∀ b ∈ before, ¬ Official M official b) →
        room ≤ (newKeys M.peerId ids before).length := by
  classical
  constructor
  · rintro hnone before addr after rfl hofficial hbefore
    obtain ⟨rest, hrest⟩ := exists_fresh_official hids hofficial hbefore after
    rw [← length_fresh]
    by_contra hroom
    refine hnone addr ?_ hofficial
    have hpos : room - (fresh M.peerId ids before).length ≠ 0 := by omega
    obtain ⟨n, hn⟩ := Nat.exists_eq_succ_of_ne_zero hpos
    rw [hrest, List.take_append, hn, List.take_succ_cons, List.mem_append]
    exact Or.inr (List.mem_cons_self ..)
  · intro hfull addr haddr hofficial
    have hsaved : addr ∈ saved := (fresh_sublist ids saved).subset (List.mem_of_mem_take haddr)
    obtain ⟨before, first, after, rfl, hfirst, hbefore⟩ :=
      exists_first ⟨addr, hsaved, hofficial⟩
    have hroom := hfull before first after rfl hfirst hbefore
    obtain ⟨rest, hrest⟩ := exists_fresh_official hids hfirst hbefore after
    -- nothing is taken behind the part in front of the first official address
    rw [← length_fresh] at hroom
    rw [hrest, List.take_append_of_le_length hroom] at haddr
    exact hbefore addr ((fresh_sublist ids before).subset (List.mem_of_mem_take haddr)) hofficial

theorem mem_peerIds_perm {l l' : List α} (h : l.Perm l') (id : String) :
    id ∈ M.peerIds l ↔ id ∈ M.peerIds l' := (h.filterMap M.peerId).mem_iff

/-- No official bootstrap peer is selected exactly if the selection is full before the first one
in the saved list. -/
theorem selectPeersToSave_notOfficial_iff (hshuffled : shuffled.Perm connected) :
    (∀ addr ∈ selectPeersToSave M connected shuffled official saved max,
      ¬ Official M official addr) ↔ FullBefore M official connected saved max := by
  by_cases hne : connected = []
  · rw [hne, selectPeersToSave_nil]
    exact iff_of_true (List.forall_mem_nil _) fun h => absurd rfl h
  have hperm := hshuffled.filter (eligible M official)
  have heligible : ∀ addr ∈ shuffled.filter (eligible M official), ¬ Official M official addr :=
    fun addr haddr => eligible_iff.mp (List.mem_filter.mp haddr).2
  have hids : ∀ id ∈ M.peerIds (shuffled.filter (eligible M official)), id ∉ M.peerIds official := by
    intro id hid hofficial
    obtain ⟨addr, haddr, hpeer⟩ := List.mem_filterMap.mp hid
    exact heligible addr haddr ⟨id, hofficial, hpeer⟩
  have hbackfill := notOfficial_take_fresh_iff hids saved
    (max - (shuffled.filter (eligible M official)).length)
  rw [selectPeersToSave_eq hne, List.forall_mem_append, hbackfill, hperm.length_eq]
  simp only [newKeys_congr (mem_peerIds_perm hperm), Nat.sub_le_iff_le_add, FullBefore]
  constructor
  · rintro ⟨-, hfull⟩ - before addr after hsaved hofficial hbefore
    rw [Nat.add_comm]
    exact hfull before addr after hsaved hofficial hbefore
  · intro hfull
    refine ⟨fun addr haddr => heligible addr (List.mem_of_mem_take haddr), ?_⟩
    intro before addr after hsaved hofficial hbefore
    rw [Nat.add_comm]
    exact hfull hne before addr after hsaved hofficial hbefore

theorem selectPeersToSave_notOfficial_oneSlot :
    (∀ addr ∈ selectPeersToSave onTwoAddrs [oneAddr] [oneAddr] [otherAddr] [otherAddr] 1,
      ¬ Official onTwoAddrs [otherAddr] addr) ∧
    FullBefore onTwoAddrs [otherAddr] [oneAddr] [otherAddr] 1 := by
  have hselected : ∀ addr ∈ selectPeersToSave onTwoAddrs [oneAddr] [oneAddr] [otherAddr]
      [otherAddr] 1, ¬ Official onTwoAddrs [otherAddr] addr := by
    have hall : ∀ addr ∈ selectPeersToSave onTwoAddrs [oneAddr] [oneAddr] [otherAddr] [otherAddr] 1,
        eligible onTwoAddrs [otherAddr] addr = true := by decide +kernel
    exact fun addr haddr => eligible_iff.mp (hall addr haddr)
  exact ⟨hselected, (selectPeersToSave_notOfficial_iff (.refl _)).mp hselected⟩

/-- A bootstrap peer that was saved before it became an official one is saved again. -/
theorem selectPeersToSave_official :
    selectPeersToSave onTwoAddrs [oneAddr] [oneAddr] [otherAddr] [otherAddr] maxBackupPeers =
      [oneAddr, otherAddr] ∧
    ¬ ∀ addr ∈ selectPeersToSave onTwoAddrs [oneAddr] [oneAddr] [otherAddr] [otherAddr]
      maxBackupPeers, ¬ Official onTwoAddrs [otherAddr] addr := by
  have hselected : selectPeersToSave onTwoAddrs [oneAddr] [oneAddr] [otherAddr] [otherAddr]
      maxBackupPeers = [oneAddr, otherAddr] := by decide +kernel
  refine ⟨hselected, fun h => ?_⟩
  rw [hselected] at h
  exact h otherAddr (by simp) (eligible_eq_false_iff.mp (by decide +kernel))

theorem mem_selectPeersToSave (hshuffled : shuffled.Perm connected)
    (h : addr ∈ selectPeersToSave M connected shuffled official saved max) :
    addr ∈ connected ∨ addr ∈ saved := by
  by_cases hne : connected = []
  · rw [hne, selectPeersToSave_nil] at h
    cases h
  rw [selectPeersToSave_eq hne, List.mem_append] at h
  refine h.imp (fun hfirst => ?_) fun hrest => ?_
  · exact hshuffled.mem_iff.mp (List.mem_filter.mp (List.mem_of_mem_take hfirst)).1
  · exact (fresh_sublist _ _).subset (List.mem_of_mem_take hrest)

theorem length_selectPeersToSave_le (shuffled official saved : List α) :
    (selectPeersToSave M connected shuffled official saved max).length ≤ max := by
  by_cases hne : connected = []
  · rw [hne, selectPeersToSave_nil]
    exact Nat.zero_le _
  · rw [selectPeersToSave_eq hne, List.length_append, List.length_take, List.length_take]
    omega

theorem selectPeersToSave_distinct (connected saved : List α)
    (hdialable : ∀ addr ∈ (shuffled.filter (eligible M official)).take max, M.peerId addr ≠ none)
    (hdistinct : (M.peerIds ((shuffled.filter (eligible M official)).take max)).Nodup) :
    (∀ addr ∈ selectPeersToSave M connected shuffled official saved max, M.peerId addr ≠ none) ∧
      (M.peerIds (selectPeersToSave M connected shuffled official saved max)).Nodup := by
  by_cases hne : connected = []
  · rw [hne, selectPeersToSave_nil]
    exact ⟨List.forall_mem_nil _, List.nodup_nil⟩
  rw [selectPeersToSave_eq hne]
  generalize shuffled.filter (eligible M official) = filtered at hdialable hdistinct
  have hfilled : ∀ addr ∈ (fresh M.peerId (M.peerIds filtered) saved).take (max - filtered.length),
      ∃ id ∉ M.peerIds filtered, M.peerId addr = some id :=
    fun addr haddr => key_of_mem_fresh (List.mem_of_mem_take haddr)
  constructor
  · refine List.forall_mem_append.mpr ⟨hdialable, fun addr haddr => ?_⟩
    obtain ⟨id, -, hpeer⟩ := hfilled addr haddr
    rw [hpeer]
    exact Option.some_ne_none id
  · rw [peerIds_append]
    refine hdistinct.append ?_ fun id hid hid' => ?_
    · exact (keys_fresh _ _).2.1.sublist ((List.take_sublist _ _).filterMap M.peerId)
    · obtain ⟨addr, haddr, hpeer⟩ := List.mem_filterMap.mp hid'
      obtain ⟨id', hnew, hpeer'⟩ := hfilled addr haddr
      obtain rfl := Option.some.inj (hpeer.symm.trans hpeer')
      exact hnew (((List.take_sublist max filtered).filterMap M.peerId).subset hid)

theorem exists_shuffled {l : List α} (hl : l.Sublist (connected.filter (eligible M official)))
    {max : Nat} (hlength : l.length ≤ max) (saved : List α) : ∃ shuffled, shuffled.Perm connected ∧
      l <+: selectPeersToSave M connected shuffled official saved max := by
  have hconnected := hl.trans List.filter_sublist
  obtain ⟨rest, hrest⟩ := hconnected.exists_perm_append
  refine ⟨l ++ rest, hrest.symm, ?_⟩
  by_cases hne : connected = []
  · rw [hne] at hconnected
    rw [List.sublist_nil.mp hconnected]
    exact List.nil_prefix
  · have hall : l.filter (eligible M official) = l :=
      List.filter_eq_self.mpr fun addr haddr => (List.mem_filter.mp (hl.subset haddr)).2
    rw [selectPeersToSave_eq hne, List.filter_append, hall, List.take_append,
      List.take_of_length_le hlength, List.append_assoc]
    exact List.prefix_append _ _

/-- Whatever the order, every slot holds the address of another peer that can be dialled, exactly
if the connections that are not official all have a peer id, and each another one where there are
two slots or more. -/
theorem selectPeersToSave_slots_iff (connected official saved : List α) (max : Nat) :
    (∀ shuffled : List α, shuffled.Perm connected → Slots M connected saved max
        (selectPeersToSave M connected shuffled official saved max)) ↔
      max = 0 ∨ (∀ addr ∈ connected.filter (eligible M official), M.peerId addr ≠ none) ∧
        (max = 1 ∨ (M.peerIds (connected.filter (eligible M official))).Nodup) := by
  constructor
  · intro hslots
    refine or_iff_not_imp_left.mpr fun hmax => ?_
    have hdialable : ∀ addr ∈ connected.filter (eligible M official), M.peerId addr ≠ none := by
      intro addr haddr
      obtain ⟨shuffled, hperm, hfirst⟩ := exists_shuffled
        (List.singleton_sublist.mpr haddr) (Nat.pos_of_ne_zero hmax) saved
      exact (hslots shuffled hperm).dialable addr (hfirst.subset (List.mem_singleton_self addr))
    refine ⟨hdialable, or_iff_not_imp_left.mpr fun hone => ?_⟩
    refine List.nodup_iff_sublist.mpr fun id hid => ?_
    obtain ⟨l, hl, hids⟩ := List.sublist_filterMap_iff.mp hid
    have hlength : l.length = 2 := by
      have hall : (l.filterMap M.peerId).length = l.length :=
        List.filterMap_length_eq_length.mpr fun addr haddr =>
          Option.isSome_iff_ne_none.mpr (hdialable addr (hl.subset haddr))
      rw [← hall, ← hids]
      rfl
    have hroom : l.length ≤ max := by omega
    obtain ⟨shuffled, hperm, hfirst⟩ := exists_shuffled hl hroom saved
    have htwice : [id, id].Sublist
        (M.peerIds (selectPeersToSave M connected shuffled official saved max)) := by
      rw [hids]
      exact hfirst.sublist.filterMap M.peerId
    exact List.nodup_iff_sublist.mp (hslots shuffled hperm).distinct id htwice
  · intro hcond shuffled hperm
    have hfilter := hperm.filter (eligible M official)
    have hboth : (∀ addr ∈ (shuffled.filter (eligible M official)).take max, M.peerId addr ≠ none) ∧
        (M.peerIds ((shuffled.filter (eligible M official)).take max)).Nodup := by
      rcases hcond with rfl | ⟨hdialable, hcond⟩
      · rw [List.take_zero]
        exact ⟨List.forall_mem_nil _, List.nodup_nil⟩
      refine ⟨fun addr haddr => hdialable addr (hfilter.subset (List.mem_of_mem_take haddr)), ?_⟩
      rcases hcond with rfl | hdistinct
      · have hone : (M.peerIds ((shuffled.filter (eligible M official)).take 1)).length ≤ 1 :=
          Nat.le_trans (List.length_filterMap_le _ _) (List.length_take_le 1 _)
        exact List.nodup_iff_count_le_one.mpr fun id => Nat.le_trans List.count_le_length hone
      · exact ((hfilter.filterMap M.peerId).nodup_iff.mpr hdistinct).sublist
          ((List.take_sublist max _).filterMap M.peerId)
    obtain ⟨hdialable, hdistinct⟩ :=
      selectPeersToSave_distinct connected saved hboth.1 hboth.2
    exact ⟨length_selectPeersToSave_le shuffled official saved,
      fun addr haddr => mem_selectPeersToSave hperm haddr, hdialable, hdistinct⟩

/-- With two connections to one peer, it has two of the slots. -/
theorem not_slots_twoConnections :
    selectPeersToSave onTwoAddrs [oneAddr, oneAddr] [oneAddr, oneAddr] [] [] maxBackupPeers =
      [oneAddr, oneAddr] ∧
    ¬ Slots onTwoAddrs [oneAddr, oneAddr] [] maxBackupPeers
      (selectPeersToSave onTwoAddrs [oneAddr, oneAddr] [oneAddr, oneAddr] [] []
        maxBackupPeers) := by
  have hselected : selectPeersToSave onTwoAddrs [oneAddr, oneAddr] [oneAddr, oneAddr] [] []
      maxBackupPeers = [oneAddr, oneAddr] := by decide +kernel
  refine ⟨hselected, fun h => ?_⟩
  have hdistinct := h.distinct
  rw [hselected] at hdistinct
  exact absurd hdistinct (by decide +kernel)

end IpfsShard.Backup
