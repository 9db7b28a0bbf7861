import Mathlib.Data.List.Basic
import Mathlib.Tactic.Common

/-! The UTF-8 decoder that puts U+FFFD where the bytes are not those of a character. Of an
encoded character, each part that comes alone is decoded to such replacements. -/

namespace Utf8

def replacement : Char := Char.ofNat 0xFFFD

/-- Between two characters, or behind the first bytes of one: its code point so far, the number
of bytes that it needs, and the bounds of the next one. -/
inductive State where
  | start
  | pending (codePoint needed lower upper : Nat)
  deriving DecidableEq

def fromStart (b : Nat) : List Char × State :=
  if b ≤ 0x7F then ([Char.ofNat b], .start)
  else if 0xC2 ≤ b ∧ b ≤ 0xDF then ([], .pending (b - 0xC0) 1 0x80 0xBF)
  else if 0xE0 ≤ b ∧ b ≤ 0xEF then
    ([], .pending (b - 0xE0) 2 (if b = 0xE0 then 0xA0 else 0x80) (if b = 0xED then 0x9F else 0xBF))
  else if 0xF0 ≤ b ∧ b ≤ 0xF4 then
    ([], .pending (b - 0xF0) 3 (if b = 0xF0 then 0x90 else 0x80) (if b = 0xF4 then 0x8F else 0xBF))
  else ([replacement], .start)

def step (s : State) (b : UInt8) : List Char × State :=
  match s with
  | .start => fromStart b.toNat
  | .pending codePoint needed lower upper =>
    if lower ≤ b.toNat ∧ b.toNat ≤ upper then
      let codePoint := codePoint * 64 + (b.toNat - 0x80)
      if needed = 1 then ([Char.ofNat codePoint], .start)
      else ([], .pending codePoint (needed - 1) 0x80 0xBF)
    else
      -- the byte may begin a character
      let r := fromStart b.toNat
      (replacement :: r.1, r.2)

def flush : State → List Char
  | .start => []
  | .pending _ _ _ _ => [replacement]

def decodeFrom (s : State) : List UInt8 → List Char
  | [] => flush s
  | b :: bytes => (step s b).1 ++ decodeFrom (step s b).2 bytes

def decode (bytes : List UInt8) : List Char := decodeFrom .start bytes

def encode (text : List Char) : List UInt8 := text.flatMap String.utf8EncodeChar

def IsContinuation (b : UInt8) : Prop := 0x80 ≤ b.toNat ∧ b.toNat ≤ 0xBF

inductive Completes (c : Char) : State → List UInt8 → Prop where
  | last {s : State} {b : UInt8} : step s b = ([c], .start) → Completes c s [b]
  | more {s s' : State} {b : UInt8} {bytes : List UInt8} : step s b = ([], s') → s' ≠ .start →
      (∀ b' ∈ bytes, IsContinuation b') → Completes c s' bytes → Completes c s (b :: bytes)

variable {b : UInt8} {n codePoint needed lower upper : Nat}

theorem fromStart_two (h : 0xC2 ≤ n ∧ n ≤ 0xDF) :
    fromStart n = ([], .pending (n - 0xC0) 1 0x80 0xBF) := by
  rw [fromStart, if_neg (by omega), if_pos h]

theorem fromStart_three (h : 0xE0 ≤ n ∧ n ≤ 0xEF) : fromStart n =
    ([], .pending (n - 0xE0) 2 (if n = 0xE0 then 0xA0 else 0x80)
      (if n = 0xED then 0x9F else 0xBF)) := by
  rw [fromStart, if_neg (by omega), if_neg (by omega), if_pos h]

theorem fromStart_four (h : 0xF0 ≤ n ∧ n ≤ 0xF4) : fromStart n =
    ([], .pending (n - 0xF0) 3 (if n = 0xF0 then 0x90 else 0x80)
      (if n = 0xF4 then 0x8F else 0xBF)) := by
  rw [fromStart, if_neg (by omega), if_neg (by omega), if_neg (by omega), if_pos h]

theorem step_last (h : lower ≤ b.toNat ∧ b.toNat ≤ upper) :
    step (.pending codePoint 1 lower upper) b =
      ([Char.ofNat (codePoint * 64 + (b.toNat - 0x80))], .start) := by
  simp only [step, if_pos h, if_true]

theorem step_more (h : lower ≤ b.toNat ∧ b.toNat ≤ upper) (hneeded : needed ≠ 0) :
    step (.pending codePoint (needed + 1) lower upper) b =
      ([], .pending (codePoint * 64 + (b.toNat - 0x80)) needed 0x80 0xBF) := by
  have hne : needed + 1 ≠ 1 := by omega
  simp only [step, if_pos h, if_neg hne, Nat.add_sub_cancel]

theorem toNat_ofNat (h : n < 256) : (UInt8.ofNat n).toNat = n := UInt8.toNat_ofNat_of_lt' h

theorem isContinuation_ofNat (n : Nat) : IsContinuation (UInt8.ofNat (n % 0x40 + 0x80)) := by
  rw [IsContinuation, toNat_ofNat (by omega)]
  omega

theorem completes_last {c : Char} (hlast : lower ≤ n % 0x40 + 0x80 ∧ n % 0x40 + 0x80 ≤ upper)
    (hpoint : Char.ofNat (codePoint * 64 + n % 0x40) = c) :
    Completes c (.pending codePoint 1 lower upper) [UInt8.ofNat (n % 0x40 + 0x80)] := by
  have hbyte : (UInt8.ofNat (n % 0x40 + 0x80)).toNat = n % 0x40 + 0x80 := toNat_ofNat (by omega)
  refine .last ?_
  rw [step_last (by omega), hbyte, Nat.add_sub_cancel, hpoint]

theorem completes_more {c : Char} {bytes : List UInt8} (hneeded : needed ≠ 0)
    (hmore : lower ≤ n % 0x40 + 0x80 ∧ n % 0x40 + 0x80 ≤ upper)
    (hbytes : ∀ b ∈ bytes, IsContinuation b)
    (hrest : Completes c (.pending (codePoint * 64 + n % 0x40) needed 0x80 0xBF) bytes) :
    Completes c (.pending codePoint (needed + 1) lower upper)
      (UInt8.ofNat (n % 0x40 + 0x80) :: bytes) := by
  have hbyte : (UInt8.ofNat (n % 0x40 + 0x80)).toNat = n % 0x40 + 0x80 := toNat_ofNat (by omega)
  refine .more ?_ (State.noConfusion) hbytes hrest
  rw [step_more (by omega) hneeded, hbyte, Nat.add_sub_cancel]

variable {c : Char} {v : Nat}

theorem completes_one (hchar : Char.ofNat v = c) (hv : v ≤ 0x7F) :
    Completes c .start [UInt8.ofNat v] := by
  refine .last ?_
  rw [step, toNat_ofNat (by omega), fromStart, if_pos hv, hchar]

theorem completes_two (hchar : Char.ofNat v = c) (hmin : 0x7F < v) (hmax : v ≤ 0x7FF) :
    Completes c .start
      [UInt8.ofNat (v / 64 % 0x20 + 0xc0), UInt8.ofNat (v % 0x40 + 0x80)] := by
  have hfirst : step .start (UInt8.ofNat (v / 64 % 0x20 + 0xc0)) =
      ([], .pending (v / 64) 1 0x80 0xBF) := by
    rw [step, toNat_ofNat (by omega), fromStart_two (by omega), Nat.add_sub_cancel,
      Nat.mod_eq_of_lt (by omega)]
  have hpoint : v / 64 * 64 + v % 0x40 = v := by omega
  refine .more hfirst State.noConfusion ?_ (completes_last (by omega) ?_)
  · exact List.forall_mem_singleton.mpr (isContinuation_ofNat v)
  · rw [hpoint, hchar]

theorem completes_three (hchar : Char.ofNat v = c) (hmin : 0x7FF < v) (hmax : v ≤ 0xFFFF)
    (hvalid : v < 0xD800 ∨ 0xDFFF < v) :
    Completes c .start [UInt8.ofNat (v / 4096 % 0x10 + 0xe0), UInt8.ofNat (v / 64 % 0x40 + 0x80),
      UInt8.ofNat (v % 0x40 + 0x80)] := by
  have hfirst : step .start (UInt8.ofNat (v / 4096 % 0x10 + 0xe0)) =
      ([], .pending (v / 4096) 2 (if v / 4096 = 0 then 0xA0 else 0x80)
        (if v / 4096 = 0xD then 0x9F else 0xBF)) := by
    have hsurrogates : v / 4096 + 0xe0 = 0xED ↔ v / 4096 = 0xD := by omega
    rw [step, toNat_ofNat (by omega), fromStart_three (by omega), Nat.add_sub_cancel,
      Nat.mod_eq_of_lt (by omega)]
    simp only [Nat.add_eq_right, hsurrogates]
  have hthird := isContinuation_ofNat v
  have hpoint : (v / 4096 * 64 + v / 64 % 0x40) * 64 + v % 0x40 = v := by omega
  refine .more hfirst State.noConfusion ?_ (completes_more (by omega) ?_ ?_
    (completes_last (by omega) ?_))
  · exact List.forall_mem_cons.mpr
      ⟨isContinuation_ofNat (v / 64), List.forall_mem_singleton.mpr hthird⟩
  · split_ifs <;> omega
  · exact List.forall_mem_singleton.mpr hthird
  · rw [hpoint, hchar]

theorem completes_four (hchar : Char.ofNat v = c) (hmin : 0xFFFF < v) (hmax : v < 0x110000) :
    Completes c .start [UInt8.ofNat (v / 262144 % 0x08 + 0xf0),
      UInt8.ofNat (v / 4096 % 0x40 + 0x80), UInt8.ofNat (v / 64 % 0x40 + 0x80),
      UInt8.ofNat (v % 0x40 + 0x80)] := by
  have hfirst : step .start (UInt8.ofNat (v / 262144 % 0x08 + 0xf0)) =
      ([], .pending (v / 262144) 3 (if v / 262144 = 0 then 0x90 else 0x80)
        (if v / 262144 = 4 then 0x8F else 0xBF)) := by
    have hlargest : v / 262144 + 0xf0 = 0xF4 ↔ v / 262144 = 4 := by omega
    rw [step, toNat_ofNat (by omega), fromStart_four (by omega), Nat.add_sub_cancel,
      Nat.mod_eq_of_lt (by omega)]
    simp only [Nat.add_eq_right, hlargest]
  have hthird := isContinuation_ofNat (v / 64)
  have hfourth := isContinuation_ofNat v
  have hpoint : ((v / 262144 * 64 + v / 4096 % 0x40) * 64 + v / 64 % 0x40) * 64 + v % 0x40 = v := by
    omega
  refine .more hfirst State.noConfusion ?_ (completes_more (by omega) ?_ ?_
    (completes_more (by omega) ?_ ?_ (completes_last (by omega) ?_)))
  · exact List.forall_mem_cons.mpr ⟨isContinuation_ofNat (v / 4096),
      List.forall_mem_cons.mpr ⟨hthird, List.forall_mem_singleton.mpr hfourth⟩⟩
  · split_ifs <;> omega
  · exact List.forall_mem_cons.mpr ⟨hthird, List.forall_mem_singleton.mpr hfourth⟩
  · omega
  · exact List.forall_mem_singleton.mpr hfourth
  · rw [hpoint, hchar]

theorem completes_encodeChar (c : Char) : Completes c .start (String.utf8EncodeChar c) := by
  have hvalid : c.val.toNat < 0xD800 ∨ 0xDFFF < c.val.toNat ∧ c.val.toNat < 0x110000 := c.valid
  have hchar : Char.ofNat c.val.toNat = c := Char.ofNat_toNat c
  unfold String.utf8EncodeChar
  simp only
  split_ifs with hone htwo hthree
  · exact completes_one hchar hone
  · exact completes_two hchar (Nat.lt_of_not_le hone) htwo
  · exact completes_three hchar (Nat.lt_of_not_le htwo) hthree (hvalid.imp_right And.left)
  · have hmax : c.val.toNat < 0x110000 := by omega
    exact completes_four hchar (Nat.lt_of_not_le hthree) hmax

theorem Completes.decodeFrom {c : Char} {s : State} {bytes : List UInt8} (h : Completes c s bytes)
    (rest : List UInt8) : decodeFrom s (bytes ++ rest) = c :: decodeFrom .start rest := by
  induction h with
  | last hstep =>
    rw [List.singleton_append, Utf8.decodeFrom, hstep]
    rfl
  | more hstep _ _ _ ih =>
    rw [List.cons_append, Utf8.decodeFrom, hstep]
    exact ih

theorem decode_encode_append (text : List Char) (rest : List UInt8) :
    decode (encode text ++ rest) = text ++ decode rest := by
  induction text with
  | nil => rfl
  | cons c text ih =>
    rw [encode, List.flatMap_cons, List.append_assoc, decode,
      (completes_encodeChar c).decodeFrom, List.cons_append, ← ih]
    rfl

theorem decode_encode (text : List Char) : decode (encode text) = text := by
  have h := decode_encode_append text []
  rwa [List.append_nil, show decode [] = [] from rfl, List.append_nil] at h

theorem encode_append (text text' : List Char) :
    encode (text ++ text') = encode text ++ encode text' :=
  List.flatMap_append

theorem exists_encode_of_append {text whole : List Char} {rest : List UInt8}
    (h : encode text ++ rest = encode whole) : ∃ text', rest = encode text' := by
  have hdecode := congrArg decode h
  rw [decode_encode_append, decode_encode] at hdecode
  refine ⟨decode rest, ?_⟩
  rw [← hdecode, encode_append] at h
  exact List.append_cancel_left h

def decodeMarks (s : State) : List (Option UInt8) → List Char
  | [] => flush s
  | none :: marks => flush s ++ decodeMarks .start marks
  | some b :: marks => (step s b).1 ++ decodeMarks (step s b).2 marks

def marks (parts : List (List UInt8)) : List (Option UInt8) :=
  parts.flatMap fun part => part.map some ++ [none]

theorem decodeMarks_part (part : List UInt8) (s : State) (rest : List (Option UInt8)) :
    decodeMarks s (part.map some ++ none :: rest) =
      Utf8.decodeFrom s part ++ decodeMarks .start rest := by
  induction part generalizing s with
  | nil => rfl
  | cons b part ih =>
    rw [List.map_cons, List.cons_append, decodeMarks, ih, Utf8.decodeFrom, List.append_assoc]

theorem decodeMarks_marks (parts : List (List UInt8)) :
    decodeMarks .start (marks parts) = parts.flatMap decode := by
  induction parts with
  | nil => rfl
  | cons part parts ih =>
    rw [marks, List.flatMap_cons, List.append_assoc, List.singleton_append, decodeMarks_part,
      List.flatMap_cons, ← ih]
    rfl

def unmarked (es : List (Option UInt8)) : List UInt8 := es.filterMap id

theorem unmarked_none (es : List (Option UInt8)) : unmarked (none :: es) = unmarked es := rfl

theorem unmarked_some (b : UInt8) (es : List (Option UInt8)) :
    unmarked (some b :: es) = b :: unmarked es := rfl

theorem unmarked_append (es es' : List (Option UInt8)) :
    unmarked (es ++ es') = unmarked es ++ unmarked es' := List.filterMap_append

theorem unmarked_marks (parts : List (List UInt8)) : unmarked (marks parts) = parts.flatten := by
  induction parts with
  | nil => rfl
  | cons part parts ih =>
    rw [marks, List.flatMap_cons, unmarked_append, unmarked_append, List.flatten_cons, ← ih]
    simp [unmarked, marks]

theorem exists_front {b : UInt8} {es front back : List (Option UInt8)}
    (h : some b :: es = front ++ none :: back) :
    ∃ front', front = some b :: front' ∧ es = front' ++ none :: back := by
  cases front with
  | nil => cases h
  | cons e front' =>
    obtain ⟨rfl, htail⟩ := List.cons.inj h
    exact ⟨front', rfl, htail⟩

theorem unmarked_front {es front back : List (Option UInt8)} (hnone : unmarked es = [])
    (h : es = front ++ none :: back) : unmarked front = [] := by
  rw [h, unmarked_append] at hnone
  exact (List.append_eq_nil_iff.mp hnone).1

/-- What becomes of a character: itself, or replacements for two parts of it or more. -/
inductive Block (c : Char) : List Char → Prop where
  | whole : Block c [c]
  | cut (n : Nat) : 2 ≤ n → 0x80 ≤ c.val.toNat → Block c (List.replicate n replacement)

variable {s : State} {bytes : List UInt8} {es : List (Option UInt8)}

theorem step_start_continuation (h : IsContinuation b) :
    step .start b = ([replacement], .start) := by
  obtain ⟨hlow, hhigh⟩ := h
  rw [step, fromStart, if_neg (by omega), if_neg (by omega), if_neg (by omega), if_neg (by omega)]

theorem decodeMarks_continuations (h : ∀ b ∈ unmarked es, IsContinuation b)
    (rest : List (Option UInt8)) : decodeMarks .start (es ++ rest) =
      List.replicate (unmarked es).length replacement ++ decodeMarks .start rest := by
  induction es with
  | nil => rfl
  | cons e es ih =>
    cases e with
    | none => exact ih h
    | some b =>
      obtain ⟨hb, hes⟩ := List.forall_mem_cons.mp h
      rw [List.cons_append, decodeMarks, step_start_continuation hb, ih hes]
      rfl

def Behind (es : List (Option UInt8)) : Prop :=
  ∀ front back, es = front ++ none :: back → unmarked front = unmarked es

def Uncut (es : List (Option UInt8)) : Prop :=
  ∀ front back, es = front ++ none :: back → unmarked front = [] ∨ unmarked front = unmarked es

theorem behind_of_unmarked_eq_nil (h : unmarked es = []) : Behind es := by
  intro front back hsplit
  rw [h]
  exact unmarked_front h hsplit

theorem Behind.cons (h : Behind es) (b : UInt8) : Behind (some b :: es) := by
  intro front back hsplit
  obtain ⟨front', rfl, hes⟩ := exists_front hsplit
  rw [unmarked_some, unmarked_some, h front' back hes]

theorem Behind.uncut (h : Behind es) : Uncut es :=
  fun front back hsplit => Or.inr (h front back hsplit)

theorem Uncut.none_cons (h : Uncut es) : Uncut (none :: es) := by
  intro front back hsplit
  cases front with
  | nil => exact Or.inl rfl
  | cons e front =>
    obtain ⟨rfl, hes⟩ := List.cons.inj hsplit
    exact h front back hes

theorem decodeMarks_of_unmarked_eq_nil (h : unmarked es = []) (rest : List (Option UInt8)) :
    decodeMarks .start (es ++ rest) = decodeMarks .start rest := by
  have hnone : ∀ b ∈ unmarked es, IsContinuation b := by
    rw [h]
    exact List.forall_mem_nil _
  rw [decodeMarks_continuations hnone, h]
  rfl

theorem flush_of_ne_start (h : s ≠ .start) : flush s = [replacement] := by
  cases s with
  | start => exact absurd rfl h
  | pending codePoint needed lower upper => rfl

theorem Completes.ne_nil (h : Completes c s bytes) : bytes ≠ [] := by
  rintro rfl
  cases h

theorem decodeMarks_rest (h : Completes c s bytes) (hs : s ≠ .start)
    (hbytes : ∀ b ∈ bytes, IsContinuation b) (hes : unmarked es = bytes)
    (rest : List (Option UInt8)) :
    (decodeMarks s (es ++ rest) = c :: decodeMarks .start rest ∧ Behind es) ∨
      ∃ n, 2 ≤ n ∧
        decodeMarks s (es ++ rest) = List.replicate n replacement ++ decodeMarks .start rest := by
  induction es generalizing s bytes with
  | nil => exact absurd hes.symm h.ne_nil
  | cons e es ih =>
    cases e with
    | none =>
      -- the part ends within the character
      rw [unmarked_none] at hes
      subst hes
      have hlength := List.length_pos_iff.mpr h.ne_nil
      refine Or.inr ⟨(unmarked es).length + 1, by omega, ?_⟩
      rw [List.cons_append, decodeMarks, decodeMarks_continuations hbytes, flush_of_ne_start hs]
      rfl
    | some b =>
      rw [unmarked_some] at hes
      rw [← hes] at h hbytes
      obtain ⟨-, hbytes⟩ := List.forall_mem_cons.mp hbytes
      rw [List.cons_append, decodeMarks]
      generalize hrest : unmarked es = bytes' at h hbytes
      cases h with
      | last hstep =>
        rw [hstep, decodeMarks_of_unmarked_eq_nil hrest]
        exact Or.inl ⟨rfl, (behind_of_unmarked_eq_nil hrest).cons b⟩
      | more hstep hs' hcont hcompletes =>
        rw [hstep]
        exact (ih hcompletes hs' hcont hrest).imp_left (And.imp_right (Behind.cons · b))

theorem large_of_encodeChar {b : UInt8} (h : b :: bytes = String.utf8EncodeChar c)
    (hbytes : bytes ≠ []) : 0x80 ≤ c.val.toNat := by
  by_contra hsmall
  rw [String.utf8EncodeChar, if_pos (by omega)] at h
  exact hbytes (List.cons.inj h).2

theorem exists_block (hes : unmarked es = String.utf8EncodeChar c) (rest : List (Option UInt8)) :
    ∃ block, Block c block ∧
      decodeMarks .start (es ++ rest) = block ++ decodeMarks .start rest ∧
      (block = [c] → Uncut es) := by
  induction es with
  | nil => exact absurd hes.symm String.utf8EncodeChar_ne_nil
  | cons e es ih =>
    cases e with
    | none =>
      obtain ⟨block, hblock, hdecode, huncut⟩ := ih hes
      exact ⟨block, hblock, hdecode, fun hwhole => (huncut hwhole).none_cons⟩
    | some b =>
      rw [unmarked_some] at hes
      have hcompletes := completes_encodeChar c
      rw [← hes] at hcompletes
      rw [List.cons_append, decodeMarks]
      generalize hrest : unmarked es = bytes' at hcompletes
      cases hcompletes with
      | last hstep =>
        rw [hstep, decodeMarks_of_unmarked_eq_nil hrest]
        exact ⟨[c], .whole, rfl, fun _ => ((behind_of_unmarked_eq_nil hrest).cons b).uncut⟩
      | more hstep hs' hcont hcompletes =>
        rw [hstep]
        rcases decodeMarks_rest hcompletes hs' hcont hrest rest with
          ⟨hdecode, hbehind⟩ | ⟨n, hn, hdecode⟩
        · exact ⟨[c], .whole, hdecode, fun _ => (hbehind.cons b).uncut⟩
        · have hlarge := large_of_encodeChar hes (hrest ▸ hcompletes.ne_nil)
          refine ⟨_, .cut n hn hlarge, hdecode, fun hwhole => ?_⟩
          have hlength := congrArg List.length hwhole
          rw [List.length_replicate, List.length_singleton] at hlength
          omega

theorem exists_blocks_marks (text : List Char) (hes : unmarked es = encode text) :
    ∃ blocks : List (Char × List Char), blocks.map Prod.fst = text ∧
      decodeMarks .start es = blocks.flatMap Prod.snd ∧ (∀ x ∈ blocks, Block x.1 x.2) ∧
      ((∀ x ∈ blocks, x.2 = [x.1]) →
        ∀ front back, es = front ++ none :: back → ∃ text', unmarked front = encode text') := by
  induction text generalizing es with
  | nil =>
    have hnil : unmarked es = [] := hes
    refine ⟨[], rfl, ?_, List.forall_mem_nil _, fun _ front back hsplit => ⟨[], ?_⟩⟩
    · have hnone := decodeMarks_of_unmarked_eq_nil hnil []
      rwa [List.append_nil] at hnone
    · exact unmarked_front hnil hsplit
  | cons c text ih =>
    obtain ⟨first, rest, rfl, hfirst, hrest⟩ := List.filterMap_eq_append_iff.mp hes
    change unmarked first = _ at hfirst
    obtain ⟨block, hblock, hdecode, huncut⟩ := exists_block hfirst rest
    obtain ⟨blocks, rfl, hblocks, hall, hwhole⟩ := ih hrest
    refine ⟨(c, block) :: blocks, rfl, ?_, List.forall_mem_cons.mpr ⟨hblock, hall⟩, ?_⟩
    · rw [hdecode, hblocks]
      rfl
    · intro hparts front back hsplit
      obtain ⟨hpart, hparts⟩ := List.forall_mem_cons.mp hparts
      rcases List.append_eq_append_iff.mp hsplit with ⟨front', rfl, hback⟩ | ⟨back', hfront, hback⟩
      · -- the mark is behind the first character
        obtain ⟨text', htext'⟩ := hwhole hparts front' back hback
        refine ⟨c :: text', ?_⟩
        rw [unmarked_append, hfirst, htext']
        rfl
      · cases back' with
        | nil =>
          rw [List.append_nil] at hfront
          refine ⟨[c], ?_⟩
          rw [← hfront, hfirst]
          exact (List.append_nil _).symm
        | cons e back'' =>
          obtain ⟨rfl, -⟩ := List.cons.inj hback
          rcases huncut hpart front back'' hfront with hnone | hall
          · exact ⟨[], hnone⟩
          · refine ⟨[c], ?_⟩
            rw [hall, hfirst]
            exact (List.append_nil _).symm

theorem marks_append (parts parts' : List (List UInt8)) :
    marks (parts ++ parts') = marks parts ++ marks parts' := List.flatMap_append

theorem marks_split (before behind : List (List UInt8)) (part : List UInt8) :
    marks (before ++ part :: behind) =
      (marks before ++ part.map some) ++ none :: marks behind := by
  rw [marks_append]
  simp [marks]

theorem unmarked_upto (before : List (List UInt8)) (part : List UInt8) :
    unmarked (marks before ++ part.map some) = before.flatten ++ part := by
  rw [unmarked_append, unmarked_marks]
  simp [unmarked]

theorem exists_encode_part {parts : List (List UInt8)} {part : List UInt8}
    (h : ∀ front back, marks parts = front ++ none :: back → ∃ text, unmarked front = encode text)
    (hpart : part ∈ parts) : ∃ text, part = encode text := by
  obtain ⟨before, behind, rfl⟩ := List.append_of_mem hpart
  have hbefore : ∃ text, before.flatten = encode text := by
    rcases List.eq_nil_or_concat' before with rfl | ⟨before', last, rfl⟩
    · exact ⟨[], rfl⟩
    · rw [List.append_assoc] at h
      obtain ⟨text, htext⟩ := h _ _ (marks_split before' (part :: behind) last)
      rw [unmarked_upto] at htext
      exact ⟨text, by rw [List.flatten_concat, htext]⟩
  obtain ⟨text, htext⟩ := hbefore
  obtain ⟨text', htext'⟩ := h _ _ (marks_split before behind part)
  rw [unmarked_upto, htext] at htext'
  exact exists_encode_of_append htext'

theorem exists_blocks {parts : List (List UInt8)} {text : List Char}
    (h : parts.flatten = encode text) :
    ∃ blocks : List (Char × List Char), blocks.map Prod.fst = text ∧
      parts.flatMap decode = blocks.flatMap Prod.snd ∧ (∀ x ∈ blocks, Block x.1 x.2) ∧
      ((∀ x ∈ blocks, x.2 = [x.1]) → ∀ part ∈ parts, ∃ s, part = encode s) := by
  have hes : unmarked (marks parts) = encode text := (unmarked_marks parts).trans h
  obtain ⟨blocks, hchars, hdecode, hall, hwhole⟩ := exists_blocks_marks text hes
  refine ⟨blocks, hchars, ?_, hall, fun hsame part hpart => ?_⟩
  · rw [← hdecode, decodeMarks_marks]
  · exact exists_encode_part (hwhole hsame) hpart

theorem flatMap_decode {parts : List (List UInt8)} (h : ∀ part ∈ parts, ∃ s, part = encode s) :
    parts.flatMap decode = decode parts.flatten := by
  induction parts with
  | nil => rfl
  | cons part parts ih =>
    obtain ⟨⟨s, rfl⟩, hparts⟩ := List.forall_mem_cons.mp h
    rw [List.flatMap_cons, ih hparts, List.flatten_cons, decode_encode_append, decode_encode]

theorem encodeChar_ascii (h : c.toNat < 0x80) :
    String.utf8EncodeChar c = [UInt8.ofNat c.toNat] := by
  have hone : c.val.toNat ≤ 0x7F := Nat.le_of_lt_succ h
  unfold String.utf8EncodeChar
  simp only [if_pos hone]
  rfl

theorem encode_ascii {text : List Char} (h : ∀ c ∈ text, c.toNat < 0x80) :
    encode text = text.map fun c => UInt8.ofNat c.toNat := by
  induction text with
  | nil => rfl
  | cons c text ih =>
    obtain ⟨hc, htext⟩ := List.forall_mem_cons.mp h
    rw [encode, List.flatMap_cons, encodeChar_ascii hc, List.map_cons, ← ih htext]
    rfl

theorem exists_encode_of_ascii {bytes : List UInt8} (h : ∀ b ∈ bytes, b.toNat < 0x80) :
    ∃ text, bytes = encode text := by
  have hnat : ∀ b ∈ bytes, (Char.ofNat b.toNat).toNat = b.toNat := by
    intro b hb
    have hb := h b hb
    have hvalid : b.toNat.isValidChar := Or.inl (by omega)
    have hchar : Char.ofNat b.toNat = Char.ofNatAux b.toNat hvalid := dif_pos hvalid
    rw [hchar]
    rfl
  refine ⟨bytes.map fun b => Char.ofNat b.toNat, ?_⟩
  have hascii : ∀ c ∈ bytes.map fun b => Char.ofNat b.toNat, c.toNat < 0x80 := by
    refine List.forall_mem_map.mpr fun b hb => ?_
    rw [hnat b hb]
    exact h b hb
  rw [encode_ascii hascii, List.map_map]
  refine (List.map_id bytes).symm.trans (List.map_congr_left fun b hb => ?_)
  rw [Function.comp_apply, hnat b hb, UInt8.ofNat_toNat]
  rfl

theorem exists_encode_part_of_ascii {parts : List (List UInt8)} {text : List Char}
    (hparts : parts.flatten = encode text) (h : ∀ c ∈ text, c.toNat < 0x80) :
    ∀ part ∈ parts, ∃ s, part = encode s := by
  intro part hpart
  refine exists_encode_of_ascii fun b hb => ?_
  have hmem : b ∈ encode text := hparts ▸ List.mem_flatten_of_mem hpart hb
  rw [encode_ascii h] at hmem
  obtain ⟨c, hc, rfl⟩ := List.mem_map.mp hmem
  have hsmall := h c hc
  rw [toNat_ofNat (by omega)]
  exact hsmall

end Utf8
