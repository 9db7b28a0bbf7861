import Mathlib.Algebra.BigOperators.Group.List.Basic
import Mathlib.Algebra.GroupWithZero.Nat
import Mathlib.Data.List.AList
import Mathlib.Data.List.Induction

/-! Tables: association lists with unique keys whose values are of one type. What a lookup
finds after writes and removals, one by one and in bulk, and what sums over the values come to. -/

namespace Table

universe u v

variable {κ : Type u} {τ : Type v} [DecidableEq κ]

def insertAll (m : AList fun _ : κ => τ) (l : List (κ × τ)) : AList fun _ : κ => τ :=
  l.foldl (fun m p => m.insert p.1 p.2) m

def eraseAll (m : AList fun _ : κ => τ) (l : List κ) : AList fun _ : κ => τ :=
  l.foldl (fun m k => m.erase k) m

variable {m : AList fun _ : κ => τ} {k k' : κ} {v w : τ}

theorem mem_iff_lookup : k ∈ m ↔ ∃ v, m.lookup k = some v := by
  rw [← AList.lookup_isSome, Option.isSome_iff_exists]

theorem lookup_insert_iff : (m.insert k v).lookup k' = some w ↔
    (k' = k ∧ v = w) ∨ (k' ≠ k ∧ m.lookup k' = some w) := by
  by_cases hk : k' = k
  · rw [hk, AList.lookup_insert]
    simp
  · rw [AList.lookup_insert_ne hk]
    simp [hk]

theorem lookup_erase_iff : (m.erase k).lookup k' = some w ↔ k' ≠ k ∧ m.lookup k' = some w := by
  by_cases hk : k' = k
  · rw [hk, AList.lookup_erase]
    simp
  · rw [AList.lookup_erase_ne hk]
    simp [hk]

theorem insertAll_concat (l : List (κ × τ)) (p : κ × τ) :
    insertAll m (l ++ [p]) = (insertAll m l).insert p.1 p.2 := by
  rw [insertAll, List.foldl_append]
  rfl

theorem lookup_insertAll_eq (l : List (κ × τ)) : (insertAll m l).lookup k =
    ((l.filter fun p => p.1 = k).getLast?.map Prod.snd).or (m.lookup k) := by
  induction l using List.reverseRecOn with
  | nil => rfl
  | append_singleton l p ih =>
    rw [insertAll_concat, List.filter_append]
    by_cases hp : p.1 = k
    · subst hp
      rw [AList.lookup_insert, List.filter_singleton]
      simp
    · rw [AList.lookup_insert_ne (Ne.symm hp), ih, List.filter_singleton]
      simp [hp]

theorem lookup_of_insertAll {l : List (κ × τ)} (h : (insertAll m l).lookup k = some v) :
    (k, v) ∈ l ∨ m.lookup k = some v := by
  induction l generalizing m with
  | nil => exact Or.inr h
  | cons p l ih =>
    rcases ih h with hmem | hold
    · exact Or.inl (List.mem_cons_of_mem _ hmem)
    · rcases lookup_insert_iff.mp hold with ⟨rfl, rfl⟩ | ⟨-, hm⟩
      · exact Or.inl (List.mem_cons_self ..)
      · exact Or.inr hm

theorem lookup_insertAll_of_ne {l : List (κ × τ)} (hl : ∀ p ∈ l, p.1 ≠ k) :
    (insertAll m l).lookup k = m.lookup k := by
  induction l generalizing m with
  | nil => rfl
  | cons p l ih =>
    obtain ⟨hp, hl'⟩ := List.forall_mem_cons.mp hl
    exact (ih hl').trans (AList.lookup_insert_ne hp.symm)

theorem lookup_insertAll {l : List (κ × τ)} (hl : ∀ p ∈ l, p.1 = k → p.2 = v)
    (h : m.lookup k = some v) : (insertAll m l).lookup k = some v := by
  induction l generalizing m with
  | nil => exact h
  | cons p l ih =>
    refine ih (fun q hq => hl q (List.mem_cons_of_mem _ hq)) (lookup_insert_iff.mpr ?_)
    by_cases hp : p.1 = k
    · exact Or.inl ⟨hp.symm, hl p (List.mem_cons_self ..) hp⟩
    · exact Or.inr ⟨fun hk => hp hk.symm, h⟩

theorem lookup_insertAll_of_mem {l : List (κ × τ)} (hl : ∀ p ∈ l, p.1 = k → p.2 = v)
    (h : (k, v) ∈ l) : (insertAll m l).lookup k = some v := by
  induction l generalizing m with
  | nil => cases h
  | cons p l ih =>
    have hl' : ∀ q ∈ l, q.1 = k → q.2 = v := fun q hq => hl q (List.mem_cons_of_mem _ hq)
    rcases List.mem_cons.mp h with rfl | hmem
    · show (insertAll (m.insert k v) l).lookup k = some v
      exact lookup_insertAll hl' (AList.lookup_insert m)
    · exact ih hl' hmem

theorem lookup_eraseAll_iff {l : List κ} :
    (eraseAll m l).lookup k = some v ↔ k ∉ l ∧ m.lookup k = some v := by
  induction l generalizing m with
  | nil => simp [eraseAll]
  | cons a l ih =>
    show (eraseAll (m.erase a) l).lookup k = some v ↔ _
    rw [ih, lookup_erase_iff, List.mem_cons, not_or]
    exact ⟨fun ⟨hl, ha, hm⟩ => ⟨⟨ha, hl⟩, hm⟩, fun ⟨⟨ha, hl⟩, hm⟩ => ⟨hl, ha, hm⟩⟩

/-- A value that is put under a key, or the removal of the key. -/
structure Write (κ : Type u) (τ : Type v) where
  key : κ
  value : Option τ

def Write.apply (m : AList fun _ : κ => τ) (w : Write κ τ) : AList fun _ : κ => τ :=
  match w.value with
  | some v => m.insert w.key v
  | none => m.erase w.key

def written (m : AList fun _ : κ => τ) (ws : List (Write κ τ)) : AList fun _ : κ => τ :=
  ws.foldl Write.apply m

def lastWrite (k : κ) (ws : List (Write κ τ)) : Option (Write κ τ) :=
  (ws.filter fun w => w.key = k).getLast?

theorem lookup_apply (w : Write κ τ) :
    (w.apply m).lookup k = if w.key = k then w.value else m.lookup k := by
  obtain ⟨key, value⟩ := w
  by_cases hk : key = k
  · subst hk
    cases value <;> simp [Write.apply]
  · cases value <;> simp [Write.apply, hk, Ne.symm hk]

theorem lookup_written (ws : List (Write κ τ)) :
    (written m ws).lookup k = ((lastWrite k ws).map Write.value).getD (m.lookup k) := by
  induction ws using List.reverseRecOn with
  | nil => rfl
  | append_singleton ws w ih =>
    have hconcat : written m (ws ++ [w]) = w.apply (written m ws) := by
      rw [written, List.foldl_append]
      rfl
    rw [hconcat, lookup_apply, ih, lastWrite, lastWrite, List.filter_append, List.filter_singleton]
    by_cases hk : w.key = k <;> simp [hk]

section

def total (f : τ → Nat) (m : AList fun _ : κ => τ) : Nat := (m.entries.map fun e => f e.2).sum

variable {f : τ → Nat}

theorem entries_erase : (m.erase k).entries = m.entries.kerase k := rfl

theorem total_erase_of_lookup_eq_none (h : m.lookup k = none) :
    total f (m.erase k) = total f m := by
  have hkey : k ∉ m.keys := AList.lookup_eq_none.mp h
  unfold total
  rw [entries_erase, List.kerase_of_notMem_keys hkey]

theorem total_erase_add (h : m.lookup k = some v) : total f (m.erase k) + f v = total f m := by
  have hkey : k ∈ m.entries.keys := AList.mem_keys.mp (Table.mem_iff_lookup.mpr ⟨v, h⟩)
  obtain ⟨w, before, after, hbefore, hentries, herase⟩ := List.exists_of_kerase hkey
  have hw : w = v := by
    have hlookup : m.entries.dlookup k = some v := h
    rw [hentries, List.dlookup_append, List.dlookup_eq_none.mpr hbefore] at hlookup
    simpa using hlookup
  subst hw
  unfold total
  rw [entries_erase, herase, hentries]
  simp only [List.map_append, List.map_cons, List.sum_append, List.sum_cons]
  omega

theorem total_insert : total f (m.insert k v) = f v + total f (m.erase k) := rfl

theorem sum_map_set {α : Type u} (g : α → Nat) {l : List α} {i : Nat} {a : α} (h : l[i]? = some a)
    (b : α) : ((l.set i b).map g).sum + g a = (l.map g).sum + g b := by
  induction l generalizing i with
  | nil => cases h
  | cons c l ih =>
    cases i with
    | zero =>
      cases h
      rw [List.set_cons_zero, List.map_cons, List.map_cons, List.sum_cons, List.sum_cons]
      omega
    | succ i =>
      have hrest := ih h
      rw [List.set_cons_succ, List.map_cons, List.map_cons, List.sum_cons, List.sum_cons]
      omega

end

end Table
