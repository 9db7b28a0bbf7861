import Mathlib.Data.List.Count
import Mathlib.Tactic.Common

/-! Lists in segments, of each of which only one element is taken: when these elements are the
whole list. -/

namespace Segments

universe u

variable {α : Type u}

def only (z : α) : List α → α
  | [a] => a
  | _ => z

def Blank (z : α) (seg : List α) : Prop := ∀ a ∈ seg, a = z

/-- There are as many elements as segments, and each segment with an element other than `z` is that
element alone, at its place. -/
structure Aligned (z : α) (segs : List (List α)) : Prop where
  length_eq : segs.flatten.length = segs.length
  placed : ∀ before seg after, segs = before ++ seg :: after →
    Blank z seg ∨ seg.length = 1 ∧ before.flatten.length = before.length

variable {z : α} {segs : List (List α)} {seg : List α}

theorem only_of_blank (h : Blank z seg) : only z seg = z := by
  unfold only
  split
  · exact h _ (List.mem_singleton_self _)
  · rfl

variable [DecidableEq α]

def weight (z : α) (l : List α) : Nat := l.countP (· ≠ z)

theorem weight_append (l l' : List α) : weight z (l ++ l') = weight z l + weight z l' :=
  List.countP_append ..

theorem weight_pos_of_mem {l : List α} {a : α} (hmem : a ∈ l) (hne : a ≠ z) : 0 < weight z l :=
  List.countP_pos_iff.mpr ⟨a, hmem, decide_eq_true hne⟩

theorem weight_only_le (seg : List α) : weight z [only z seg] ≤ weight z seg := by
  unfold only
  split
  · exact Nat.le_refl _
  · simp [weight]

theorem weight_map_le (segs : List (List α)) :
    weight z (segs.map (only z)) ≤ weight z segs.flatten := by
  induction segs with
  | nil => exact Nat.le_refl 0
  | cons seg segs ih =>
    have hseg := weight_only_le (z := z) seg
    rw [List.map_cons, List.flatten_cons, weight_append, ← List.singleton_append, weight_append]
    exact Nat.add_le_add hseg ih

theorem weight_parts {before after : List (List α)}
    (h : (before ++ seg :: after).map (only z) = (before ++ seg :: after).flatten) :
    weight z (before.map (only z)) = weight z before.flatten ∧
      weight z [only z seg] = weight z seg := by
  have hbefore := weight_map_le (z := z) before
  have hseg := weight_only_le (z := z) seg
  have hafter := weight_map_le (z := z) after
  have htotal := congrArg (weight z) h
  rw [List.map_append, List.map_cons, List.flatten_append, List.flatten_cons, weight_append,
    weight_append, ← List.singleton_append, weight_append, weight_append] at htotal
  omega

theorem length_eq_of_weight_eq {front front' back back' : List α} {a : α} (hne : a ≠ z)
    (h : front ++ a :: back = front' ++ a :: back') (hweight : weight z front = weight z front') :
    front.length = front'.length := by
  have hlonger : ∀ {l l' r r' m : List α}, l' = l ++ m → a :: r = m ++ a :: r' →
      weight z l = weight z l' → l.length = l'.length := by
    rintro l l' r r' m rfl hm hw
    cases m with
    | nil => rw [List.append_nil]
    | cons b m =>
      obtain ⟨rfl, -⟩ := List.cons_eq_cons.mp hm
      have hpos := weight_pos_of_mem (List.mem_cons_self (a := a) (l := m)) hne
      rw [weight_append] at hw
      omega
  rcases List.append_eq_append_iff.mp h with ⟨m, hfront, hback⟩ | ⟨m, hfront, hback⟩
  · exact hlonger hfront hback hweight
  · exact (hlonger hfront hback hweight.symm).symm

theorem aligned_of_map_eq (h : segs.map (only z) = segs.flatten) : Aligned z segs where
  length_eq := by rw [← h, List.length_map]
  placed := by
    rintro before seg after rfl
    obtain ⟨hbefore, hseg⟩ := weight_parts h
    by_cases hblank : Blank z seg
    · exact Or.inl hblank
    refine Or.inr ?_
    obtain ⟨b, hb, hbne⟩ : ∃ b ∈ seg, b ≠ z := by simpa [Blank] using hblank
    have honly : only z seg ≠ z := by
      intro heq
      have hpos := weight_pos_of_mem hb hbne
      have hzero : weight z [z] = 0 := by simp [weight]
      rw [heq, hzero] at hseg
      omega
    obtain ⟨a, rfl⟩ : ∃ a, seg = [a] := by
      unfold only at honly
      split at honly
      · exact ⟨_, rfl⟩
      · exact absurd rfl honly
    refine ⟨rfl, ?_⟩
    rw [List.map_append, List.map_cons, List.flatten_append, List.flatten_cons,
      List.singleton_append] at h
    have hlength := length_eq_of_weight_eq honly h hbefore
    rw [← hlength, List.length_map]

omit [DecidableEq α] in
theorem exists_segment {front back : List α} {a : α} (h : segs.flatten = front ++ a :: back) :
    ∃ before pre post after, segs = before ++ (pre ++ a :: post) :: after ∧
      front = before.flatten ++ pre := by
  rcases List.flatten_eq_append_iff.mp h with ⟨before, rest, rfl, rfl, hrest⟩ |
    ⟨before, pre, c, post, after, rfl, rfl, hc⟩
  · obtain ⟨empty, post, after, rfl, hempty, -⟩ := List.flatten_eq_cons_iff.mp hrest.symm
    refine ⟨before ++ empty, [], post, after, by simp, ?_⟩
    simp [List.flatten_eq_nil_iff.mpr hempty]
  · obtain ⟨rfl, -⟩ := List.cons_eq_cons.mp hc
    exact ⟨before, pre, post, after, rfl, rfl⟩

omit [DecidableEq α] in
theorem Aligned.getElem?_eq (h : Aligned z segs) {i : Nat} {a : α}
    (ha : segs.flatten[i]? = some a) (hne : a ≠ z) : segs[i]? = some [a] := by
  obtain ⟨hi, rfl⟩ := List.getElem?_eq_some_iff.mp ha
  have hsplit : segs.flatten =
      segs.flatten.take i ++ segs.flatten[i] :: segs.flatten.drop (i + 1) := by simp
  obtain ⟨before, pre, post, after, hsegs, hfront⟩ := exists_segment hsplit
  have hlength := congrArg List.length hfront
  rw [List.length_take_of_le (Nat.le_of_lt hi), List.length_append] at hlength
  rcases h.placed _ _ _ hsegs with hblank | ⟨hone, hplace⟩
  · exact absurd (hblank _ (by simp)) hne
  · rw [List.length_append, List.length_cons] at hone
    obtain rfl : pre = [] := List.eq_nil_of_length_eq_zero (by omega)
    obtain rfl : post = [] := List.eq_nil_of_length_eq_zero (by omega)
    have hbefore : i = before.length := by simpa [hplace] using hlength
    generalize segs.flatten[i] = a at hsegs ⊢
    rw [hsegs, hbefore]
    simp

omit [DecidableEq α] in
theorem map_eq_of_aligned (h : Aligned z segs) : segs.map (only z) = segs.flatten := by
  refine List.ext_getElem? fun i => ?_
  rw [List.getElem?_map]
  cases hseg : segs[i]? with
  | none =>
    have hle := List.getElem?_eq_none_iff.mp hseg
    exact (List.getElem?_eq_none_iff.mpr (h.length_eq ▸ hle)).symm
  | some seg =>
    have hi : i < segs.flatten.length := by
      rw [h.length_eq]
      exact (List.getElem?_eq_some_iff.mp hseg).1
    obtain ⟨a, ha⟩ : ∃ a, segs.flatten[i]? = some a := ⟨_, List.getElem?_eq_getElem hi⟩
    rw [Option.map_some, ha, Option.some.injEq]
    by_cases haz : a = z
    · rw [haz]
      obtain ⟨before, after, hsegs, hlength⟩ : ∃ before after, segs = before ++ seg :: after ∧
          before.length = i := by
        obtain ⟨hlt, rfl⟩ := List.getElem?_eq_some_iff.mp hseg
        exact ⟨segs.take i, segs.drop (i + 1), by simp, List.length_take_of_le (Nat.le_of_lt hlt)⟩
      rcases h.placed _ _ _ hsegs with hblank | ⟨hone, hplace⟩
      · exact only_of_blank hblank
      · obtain ⟨b, rfl⟩ := List.length_eq_one_iff.mp hone
        rw [hsegs, List.flatten_append, ← hlength, ← hplace, List.getElem?_append_right
          (Nat.le_refl _), Nat.sub_self] at ha
        exact (Option.some.inj ha).trans haz
    · have honly := h.getElem?_eq ha haz
      rw [hseg] at honly
      cases honly
      rfl

theorem map_eq_iff_aligned : segs.map (only z) = segs.flatten ↔ Aligned z segs :=
  ⟨aligned_of_map_eq, map_eq_of_aligned⟩

end Segments
