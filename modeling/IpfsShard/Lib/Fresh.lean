import Mathlib.Data.List.Dedup
import Mathlib.Tactic.Common

/-! The elements of a list whose key is met for the first time, where some keys have been met
before and some elements have no key. -/

namespace Fresh

universe u v

variable {α : Type u} {κ : Type v} [DecidableEq κ] (key : α → Option κ)

def fresh : List κ → List α → List α
  | _, [] => []
  | seen, a :: l =>
    match key a with
    | none => fresh seen l
    | some k => if k ∈ seen then fresh seen l else a :: fresh (seen ++ [k]) l

def newKeys (seen : List κ) (l : List α) : List κ :=
  ((l.filterMap key).filter fun k => k ∉ seen).dedup

variable {key} {seen seen' : List κ} {l : List α} {a : α} {k : κ}

theorem fresh_none (h : key a = none) : fresh key seen (a :: l) = fresh key seen l := by
  rw [fresh, h]

theorem fresh_seen (h : key a = some k) (hk : k ∈ seen) :
    fresh key seen (a :: l) = fresh key seen l := by
  simp only [fresh, h, if_pos hk]

theorem fresh_new (h : key a = some k) (hk : k ∉ seen) :
    fresh key seen (a :: l) = a :: fresh key (seen ++ [k]) l := by
  simp only [fresh, h, if_neg hk]

theorem newKeys_congr (h : ∀ k, k ∈ seen ↔ k ∈ seen') (l : List α) :
    newKeys key seen l = newKeys key seen' l := by
  simp only [newKeys, h]

theorem fresh_sublist (seen : List κ) (l : List α) : (fresh key seen l).Sublist l := by
  induction l generalizing seen with
  | nil => exact .slnil
  | cons a l ih =>
    cases hkey : key a with
    | none =>
      rw [fresh_none hkey]
      exact (ih seen).cons a
    | some k =>
      by_cases hk : k ∈ seen
      · rw [fresh_seen hkey hk]
        exact (ih seen).cons a
      · rw [fresh_new hkey hk]
        exact (ih _).cons_cons a

theorem keys_fresh (seen : List κ) (l : List α) :
    (fresh key seen l).map key = ((fresh key seen l).filterMap key).map some ∧
      ((fresh key seen l).filterMap key).Nodup ∧
      ∀ k, k ∈ (fresh key seen l).filterMap key ↔ k ∈ l.filterMap key ∧ k ∉ seen := by
  induction l generalizing seen with
  | nil => simp [fresh]
  | cons a l ih =>
    cases hkey : key a with
    | none =>
      rw [fresh_none hkey, List.filterMap_cons_none hkey]
      exact ih seen
    | some k =>
      rw [List.filterMap_cons_some hkey]
      by_cases hk : k ∈ seen
      · rw [fresh_seen hkey hk]
        obtain ⟨hmap, hnodup, hmem⟩ := ih seen
        refine ⟨hmap, hnodup, fun k' => (hmem k').trans ?_⟩
        constructor
        · exact fun ⟨hl, hnew⟩ => ⟨List.mem_cons_of_mem _ hl, hnew⟩
        · rintro ⟨hl, hnew⟩
          refine ⟨(List.mem_cons.mp hl).resolve_left ?_, hnew⟩
          rintro rfl
          exact hnew hk
      · rw [fresh_new hkey hk, List.filterMap_cons_some hkey]
        obtain ⟨hmap, hnodup, hmem⟩ := ih (seen ++ [k])
        refine ⟨by rw [List.map_cons, List.map_cons, hkey, hmap], ?_, fun k' => ?_⟩
        · refine List.nodup_cons.mpr ⟨fun hin => ?_, hnodup⟩
          exact ((hmem k).mp hin).2 (by simp)
        · rw [List.mem_cons, List.mem_cons, hmem, List.mem_append, List.mem_singleton, not_or]
          constructor
          · rintro (rfl | ⟨hl, hnew, -⟩)
            · exact ⟨Or.inl rfl, hk⟩
            · exact ⟨Or.inr hl, hnew⟩
          · rintro ⟨rfl | hl, hnew⟩
            · exact Or.inl rfl
            · by_cases heq : k' = k
              · exact Or.inl heq
              · exact Or.inr ⟨hl, hnew, heq⟩

theorem key_of_mem_fresh (h : a ∈ fresh key seen l) : ∃ k ∉ seen, key a = some k := by
  have hmap : key a ∈ (fresh key seen l).map key := List.mem_map_of_mem h
  rw [(keys_fresh seen l).1] at hmap
  obtain ⟨k, hk, hkey⟩ := List.mem_map.mp hmap
  exact ⟨k, (((keys_fresh seen l).2.2 k).mp hk).2, hkey.symm⟩

theorem length_fresh (seen : List κ) (l : List α) :
    (fresh key seen l).length = (newKeys key seen l).length := by
  obtain ⟨hmap, hnodup, hmem⟩ : (fresh key seen l).map key = _ ∧ _ := keys_fresh seen l
  have hperm : ((fresh key seen l).filterMap key).Perm (newKeys key seen l) := by
    refine (List.perm_ext_iff_of_nodup hnodup (List.nodup_dedup _)).mpr fun k => ?_
    simp only [hmem, List.mem_dedup, List.mem_filter, decide_eq_true_eq]
  have hlength := congrArg List.length hmap
  rw [List.length_map, List.length_map] at hlength
  exact hlength.trans hperm.length_eq

theorem fresh_append_cons {before after : List α} (h : key a = some k) (hseen : k ∉ seen)
    (hbefore : k ∉ before.filterMap key) :
    ∃ rest, fresh key seen (before ++ a :: after) = fresh key seen before ++ a :: rest := by
  induction before generalizing seen with
  | nil => exact ⟨_, fresh_new h hseen⟩
  | cons b before ih =>
    rw [List.cons_append]
    cases hkey : key b with
    | none =>
      rw [List.filterMap_cons_none hkey] at hbefore
      rw [fresh_none hkey, fresh_none hkey]
      exact ih hseen hbefore
    | some k' =>
      rw [List.filterMap_cons_some hkey, List.mem_cons, not_or] at hbefore
      by_cases hk' : k' ∈ seen
      · rw [fresh_seen hkey hk', fresh_seen hkey hk']
        exact ih hseen hbefore.2
      · have hseen' : k ∉ seen ++ [k'] := by
          rw [List.mem_append, List.mem_singleton, not_or]
          exact ⟨hseen, hbefore.1⟩
        obtain ⟨rest, hrest⟩ := ih hseen' hbefore.2
        rw [fresh_new hkey hk', fresh_new hkey hk', hrest]
        exact ⟨rest, rfl⟩

end Fresh
