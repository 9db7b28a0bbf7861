import Mathlib.Data.List.Induction
import Mathlib.Data.List.Nodup

/-! Sets and maps that keep the order in which their keys came in: a key that is set again stays in
its place and has its last value. -/

namespace Insertion

universe u v

variable {κ : Type u} {τ : Type v} [DecidableEq κ]

def add (l : List κ) (k : κ) : List κ := if k ∈ l then l else l ++ [k]

def ofList (l : List κ) : List κ := l.foldl add []

def set (m : List (κ × τ)) (p : κ × τ) : List (κ × τ) :=
  if p.1 ∈ m.map Prod.fst then m.map fun q => if q.1 = p.1 then p else q else m ++ [p]

def ofPairs (l : List (κ × τ)) : List (κ × τ) := l.foldl set []

variable {l : List κ} {m : List (κ × τ)} {k : κ} {p q : κ × τ}

theorem mem_add {k' : κ} : k' ∈ add l k ↔ k' ∈ l ∨ k' = k := by
  rw [add]
  split_ifs with hk
  · exact ⟨Or.inl, fun h => h.elim id fun heq => heq ▸ hk⟩
  · rw [List.mem_append, List.mem_singleton]

theorem nodup_add (h : l.Nodup) (k : κ) : (add l k).Nodup := by
  rw [add]
  split_ifs with hk
  · exact h
  · exact List.nodup_append.mpr ⟨h, List.nodup_singleton k, fun a ha b hb heq =>
      hk (List.mem_singleton.mp hb ▸ heq ▸ ha)⟩

theorem ofList_concat (l : List κ) (k : κ) : ofList (l ++ [k]) = add (ofList l) k :=
  List.foldl_append

theorem mem_ofList : k ∈ ofList l ↔ k ∈ l := by
  induction l using List.reverseRecOn with
  | nil => rfl
  | append_singleton l k' ih => rw [ofList_concat, mem_add, ih, List.mem_append, List.mem_singleton]

theorem nodup_ofList (l : List κ) : (ofList l).Nodup := by
  induction l using List.reverseRecOn with
  | nil => exact List.nodup_nil
  | append_singleton l k ih =>
    rw [ofList_concat]
    exact nodup_add ih k

theorem ofPairs_concat (l : List (κ × τ)) (p : κ × τ) : ofPairs (l ++ [p]) = set (ofPairs l) p :=
  List.foldl_append

theorem keys_set (m : List (κ × τ)) (p : κ × τ) :
    (set m p).map Prod.fst = add (m.map Prod.fst) p.1 := by
  rw [set, add]
  split_ifs with hk
  · rw [List.map_map]
    refine List.map_congr_left fun q _ => ?_
    rw [Function.comp_apply]
    split_ifs with hq
    · exact hq.symm
    · rfl
  · rw [List.map_append, List.map_singleton]

theorem keys_ofPairs (l : List (κ × τ)) : (ofPairs l).map Prod.fst = ofList (l.map Prod.fst) := by
  induction l using List.reverseRecOn with
  | nil => rfl
  | append_singleton l p ih =>
    rw [ofPairs_concat, keys_set, ih, List.map_append, List.map_singleton, ofList_concat]

theorem mem_set : q ∈ set m p ↔ q = p ∨ (q.1 ≠ p.1 ∧ q ∈ m) := by
  rw [set]
  split_ifs with hk
  · constructor
    · intro h
      obtain ⟨r, hr, rfl⟩ := List.mem_map.mp h
      split_ifs with heq
      · exact Or.inl rfl
      · exact Or.inr ⟨heq, hr⟩
    · rintro (rfl | ⟨hne, hq⟩)
      · obtain ⟨r, hr, heq⟩ := List.mem_map.mp hk
        exact List.mem_map.mpr ⟨r, hr, if_pos heq⟩
      · exact List.mem_map.mpr ⟨q, hq, if_neg hne⟩
  · rw [List.mem_append, List.mem_singleton, or_comm]
    refine or_congr_right (iff_and_self.mpr fun hq heq => ?_)
    exact hk (heq ▸ List.mem_map_of_mem hq)

theorem mem_ofPairs {l : List (κ × τ)} :
    p ∈ ofPairs l ↔ (l.filter fun q => q.1 = p.1).getLast? = some p := by
  induction l using List.reverseRecOn with
  | nil => exact iff_of_false List.not_mem_nil nofun
  | append_singleton l q ih =>
    rw [ofPairs_concat, mem_set, ih, List.filter_append, List.filter_singleton]
    by_cases hq : q.1 = p.1
    · rw [decide_eq_true hq, cond_true, List.getLast?_append, List.getLast?_singleton,
        Option.some_or, Option.some.injEq, or_iff_left fun h => h.1 hq.symm, eq_comm]
    · rw [decide_eq_false hq, cond_false, List.append_nil,
        or_iff_right fun h => hq (congrArg Prod.fst h).symm]
      exact and_iff_right (Ne.symm hq)

end Insertion
