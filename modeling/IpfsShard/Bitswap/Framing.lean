import IpfsShard.Bitswap.ReadLoop
import Mathlib.Data.List.SplitLengths

/-! Frames over arbitrary chunks. The buffer is trimmed twice when a chunk ends inside a
frame, by `slice(offset)` both before the `break` and behind the loop, so bytes are lost
as soon as the same chunk has completed another frame. -/

namespace IpfsShard.Bitswap
open Codec Loop

def stream (ms : List Bytes) : Bytes := concatBytes (ms.map encodeWithLengthPrefix)

def Delivers (ms chunks : List Bytes) : Prop :=
  ∃ fuel, readLoop fuel [] (chunks.map .uint8Array) = some (ms, [])

def FrameEnd (ms : List Bytes) (p : Nat) : Prop := ∃ i, (stream (ms.take i)).length = p

/-- A chunk in which a frame ends does itself end with a frame. The first chunk starts
behind `start` bytes of the stream. -/
def CutsClean (ms : List Bytes) : Nat → List Bytes → Prop
  | _, [] => True
  | start, chunk :: chunks =>
    (∀ p, FrameEnd ms p → start < p → p ≤ start + chunk.length →
      FrameEnd ms (start + chunk.length)) ∧ CutsClean ms (start + chunk.length) chunks

def Incomplete (bytes : Bytes) : List Bytes → Prop
  | [] => bytes = []
  | m :: _ => bytes <+: encodeWithLengthPrefix m ∧ bytes.length < (encodeWithLengthPrefix m).length

def Short (ms : List Bytes) : Prop := ∀ m ∈ ms, m.length < 2 ^ 31

@[simp] theorem stream_nil : stream [] = [] := rfl

@[simp] theorem stream_cons (m : Bytes) (ms : List Bytes) :
    stream (m :: ms) = encodeWithLengthPrefix m ++ stream ms := rfl

theorem stream_append (ms ns : List Bytes) : stream (ms ++ ns) = stream ms ++ stream ns := by
  simp [stream, concatBytes]

theorem encodeWithLengthPrefix_eq {m : Bytes} (h : m.length < 2 ^ 31) :
    encodeWithLengthPrefix m = Leb128.encode m.length ++ m := by
  simp [encodeWithLengthPrefix, concatBytes, appendVarint_eq (show m.length < 2 ^ 32 by omega)]

theorem length_encodeWithLengthPrefix_pos {m : Bytes} (h : m.length < 2 ^ 31) :
    0 < (encodeWithLengthPrefix m).length := by
  rw [encodeWithLengthPrefix_eq h, List.length_append]
  have := Leb128.length_encode_pos m.length
  omega

theorem Incomplete.eq_nil_of_nil {bytes : Bytes} (h : Incomplete bytes []) : bytes = [] := h

theorem exists_incomplete {bytes : Bytes} {ms : List Bytes} (h : bytes <+: stream ms) :
    ∃ k rest, bytes = stream (ms.take k) ++ rest ∧ Incomplete rest (ms.drop k) := by
  induction ms generalizing bytes with
  | nil => exact ⟨0, [], by simpa using h, rfl⟩
  | cons m ms ih =>
    rw [stream_cons] at h
    by_cases hlt : bytes.length < (encodeWithLengthPrefix m).length
    · refine ⟨0, bytes, by simp, ?_, hlt⟩
      exact List.prefix_of_prefix_length_le h (List.prefix_append ..) (Nat.le_of_lt hlt)
    · obtain ⟨tail, rfl⟩ := List.prefix_of_prefix_length_le (List.prefix_append ..) h (by omega)
      obtain ⟨k, rest, hk, hrest⟩ := ih (by simpa using h)
      exact ⟨k + 1, rest, by simp [hk], hrest⟩

theorem framePass_frame {m : Bytes} (hm : m.length < 2 ^ 31) (front back : Bytes)
    (handled : List Bytes) :
    framePass ⟨front ++ (encodeWithLengthPrefix m ++ back), front.length, handled⟩ =
      .next ⟨front ++ (encodeWithLengthPrefix m ++ back),
        (front ++ encodeWithLengthPrefix m).length, handled ++ [m]⟩ := by
  have hread := readVarint_encode front (m ++ back) hm
  have hslice := slice_append (front ++ Leb128.encode m.length) m back
  have hpos := Leb128.length_encode_pos m.length
  rw [encodeWithLengthPrefix_eq hm]
  simp only [List.append_assoc, List.length_append, Int.natCast_add] at hread hslice ⊢
  rw [framePass, if_neg (by simp; omega)]
  simp only [hread, List.length_append]
  rw [if_neg (by omega), hslice]

theorem framePass_incomplete {m rest : Bytes} (hm : m.length < 2 ^ 31) (hne : rest ≠ [])
    (hstart : rest <+: encodeWithLengthPrefix m)
    (hlt : rest.length < (encodeWithLengthPrefix m).length) (front : Bytes)
    (handled : List Bytes) :
    framePass ⟨front ++ rest, front.length, handled⟩ = .exit ⟨rest, front.length, handled⟩ := by
  have hend := slice_to_end (front ++ rest) front.length (by simp)
  rw [List.drop_left] at hend
  have hwait : (front ++ rest).length < (front.length : Int) +
      (readVarint (front ++ rest) front.length).2 +
      (readVarint (front ++ rest) front.length).1 := by
    rw [encodeWithLengthPrefix_eq hm] at hstart hlt
    by_cases hcut : rest.length < (Leb128.encode m.length).length
    · -- the length prefix is cut off: reading it goes past the end
      have hnum := List.prefix_of_prefix_length_le hstart (List.prefix_append ..)
        (Nat.le_of_lt hcut)
      obtain ⟨t, ht⟩ := hnum
      have ht0 : t ≠ [] := by
        rintro rfl
        simp [← ht] at hcut
      have hlen := Leb128.length_encode_le (n := m.length) (k := 4) (by omega)
      have h := readVarint_truncated front (Leb128.continues_of_prefix ht0 ht.symm) (by omega)
      rw [List.length_append]
      omega
    · -- the body is cut off
      obtain ⟨body, rfl⟩ := List.prefix_of_prefix_length_le (List.prefix_append ..) hstart
        (by omega)
      rw [readVarint_encode front body hm]
      simp only [List.length_append] at hlt ⊢
      omega
  have hin : ¬ (front.length : Int) ≥ (front ++ rest).length := by
    have := List.length_pos_iff.mpr hne
    rw [List.length_append]
    omega
  simp only [framePass, if_neg hin]
  rw [if_pos (by omega), hend]

theorem frameLoop_ends {fs ms : List Bytes} {rest : Bytes} (hshort : Short (fs ++ ms))
    (hrest : Incomplete rest ms) (front : Bytes) (handled : List Bytes) :
    frameLoop.Ends ⟨front ++ (stream fs ++ rest), front.length, handled⟩
      ⟨if rest = [] then front ++ stream fs else rest, (front ++ stream fs).length,
        handled ++ fs⟩ := by
  -- by induction on the frames still to come, with those in front of the offset in `front`
  induction fs generalizing front handled with
  | nil =>
    by_cases hnil : rest = []
    · subst hnil
      simpa using While.ends_of_not_cond (w := frameLoop) (s := ⟨front, front.length, handled⟩)
        (by simp [frameLoop])
    · cases ms with
      | nil => exact absurd hrest hnil
      | cons m ms =>
        have hpass := framePass_incomplete (hshort m (by simp)) hnil hrest.1 hrest.2 front handled
        have hpos := List.length_pos_iff.mpr hnil
        simpa [hnil] using While.ends_exit (w := frameLoop)
          (s := ⟨front ++ rest, front.length, handled⟩) (by simp [frameLoop]; omega)
          (congrArg some hpass)
  | cons f fs ih =>
    have hf : f.length < 2 ^ 31 := hshort f (by simp)
    have hpass := framePass_frame hf front (stream fs ++ rest) handled
    have hpos := length_encodeWithLengthPrefix_pos hf
    have hih := ih (fun m hm => hshort m (by simp_all)) (front ++ encodeWithLengthPrefix f)
      (handled ++ [f])
    simp only [stream_cons, List.append_assoc, List.singleton_append] at hpass hih ⊢
    exact While.ends_next (by simp [frameLoop]; omega) (congrArg some hpass) hih

theorem readChunk_eq {fs ms : List Bytes} {buffer chunk rest : Bytes} (hshort : Short (fs ++ ms))
    (hrest : Incomplete rest ms) (h : buffer ++ chunk = stream fs ++ rest) :
    ∃ fuel, readChunk fuel buffer (.uint8Array chunk) =
      some (fs, rest.drop (stream fs).length) := by
  obtain ⟨fuel, hfuel⟩ := frameLoop_ends hshort hrest [] []
  refine ⟨fuel, ?_⟩
  have hbuf : concatBytes [buffer, (Chunk.uint8Array chunk).bytes] = [] ++ (stream fs ++ rest) := by
    simpa [concatBytes, Chunk.bytes] using h
  rw [readChunk, hbuf]
  simp only [List.length_nil, Int.natCast_zero] at hfuel
  rw [hfuel, Option.map_some]
  simp only [List.nil_append, Frames.unparsed]
  by_cases hnil : rest = []
  · simp [hnil]
  · rw [if_neg hnil]
    split_ifs with hlt
    · rw [slice_to_end _ _ (by omega)]
    · rw [List.drop_eq_nil_of_le (by omega)]

theorem readChunk_fuel {n m : Nat} {buffer : Bytes} {chunk : Chunk} {r : List Bytes × Bytes}
    (hnm : n ≤ m) (h : readChunk n buffer chunk = some r) : readChunk m buffer chunk = some r := by
  obtain ⟨t, ht, rfl⟩ := Option.map_eq_some_iff.mp h
  rw [readChunk, While.run_fuel hnm ht, Option.map_some]

theorem readLoop_cons {fuel : Nat} {buffer : Bytes} {chunk : Chunk} {chunks : List Chunk}
    {r : List Bytes × Bytes} :
    readLoop fuel buffer (chunk :: chunks) = some r ↔
      ∃ h b, readChunk fuel buffer chunk = some (h, b) ∧
        ∃ r', readLoop fuel b chunks = some r' ∧ r = (h ++ r'.1, r'.2) := by
  rw [readLoop]
  split
  · simp [*]
  · rename_i h b hc
    constructor
    · intro hr
      obtain ⟨r', hr', rfl⟩ := Option.map_eq_some_iff.mp hr
      exact ⟨h, b, hc, r', hr', rfl⟩
    · rintro ⟨h', b', hc', r', hr', rfl⟩
      rw [hc] at hc'
      cases hc'
      rw [hr', Option.map_some]

theorem readLoop_fuel {n m : Nat} {buffer : Bytes} {chunks : List Chunk}
    {r : List Bytes × Bytes} (hnm : n ≤ m) (h : readLoop n buffer chunks = some r) :
    readLoop m buffer chunks = some r := by
  induction chunks generalizing buffer r with
  | nil => exact h
  | cons chunk chunks ih =>
    obtain ⟨hs, b, hc, r', hr', rfl⟩ := readLoop_cons.mp h
    exact readLoop_cons.mpr ⟨hs, b, readChunk_fuel hnm hc, r', ih hr', rfl⟩

theorem FrameEnd.le_or_lt {done ms : List Bytes} {rest : Bytes} {p : Nat}
    (h : FrameEnd (done ++ ms) p) (hrest : Incomplete rest ms) :
    p ≤ (stream done).length ∨ (stream done).length + rest.length < p := by
  obtain ⟨i, rfl⟩ := h
  by_cases hi : i ≤ done.length
  · left
    rw [List.take_append_of_le_length hi]
    conv_rhs => rw [← List.take_append_drop i done, stream_append, List.length_append]
    omega
  · rw [List.take_append, List.take_of_length_le (by omega), stream_append, List.length_append]
    obtain ⟨j, hj⟩ : ∃ j, i - done.length = j + 1 := ⟨i - done.length - 1, by omega⟩
    cases ms with
    | nil => simp
    | cons m ms =>
      right
      have hlt := hrest.2
      rw [hj, List.take_succ_cons, stream_cons, List.length_append]
      omega

theorem frameEnd_stream (done ms : List Bytes) : FrameEnd (done ++ ms) (stream done).length :=
  ⟨done.length, by rw [List.take_left]⟩

theorem cut_iff {done fs ms : List Bytes} {buffer chunk rest : Bytes}
    (hbuffer : Incomplete buffer (fs ++ ms)) (hrest : Incomplete rest ms)
    (h : buffer ++ chunk = stream fs ++ rest) :
    (∀ p, FrameEnd (done ++ (fs ++ ms)) p → (stream done).length + buffer.length < p →
        p ≤ (stream done).length + buffer.length + chunk.length →
        FrameEnd (done ++ (fs ++ ms)) ((stream done).length + buffer.length + chunk.length)) ↔
      fs = [] ∨ rest = [] := by
  have hlen : buffer.length + chunk.length = (stream fs).length + rest.length := by
    simpa using congrArg List.length h
  have hdone : (stream (done ++ fs)).length = (stream done).length + (stream fs).length := by
    rw [stream_append, List.length_append]
  rw [← List.append_assoc]
  constructor
  · intro hclean
    cases fs with
    | nil => exact Or.inl rfl
    | cons f fs =>
      right
      have hp : FrameEnd (done ++ (f :: fs) ++ ms) (stream (done ++ [f])).length := by
        have := frameEnd_stream (done ++ [f]) (fs ++ ms)
        simpa using this
      have hf : (stream (done ++ [f])).length =
          (stream done).length + (encodeWithLengthPrefix f).length := by
        simp [stream_append]
      have hlt := hbuffer.2
      have hfs : (stream (f :: fs)).length =
          (encodeWithLengthPrefix f).length + (stream fs).length := by simp
      have hend := hclean _ hp (by omega) (by omega)
      -- the chunk ends with a frame, so nothing of the next one is in it
      rcases hend.le_or_lt hrest with hle | hlt'
      · exact List.length_eq_zero_iff.mp (by omega)
      · omega
  · rintro (rfl | rfl) p hp hlo hhi
    · rw [List.append_nil] at hp
      simp only [stream_nil, List.length_nil] at hlen
      rcases hp.le_or_lt hrest with hle | hlt <;> omega
    · have hend := frameEnd_stream (done ++ fs) ms
      rwa [hdone, show (stream done).length + (stream fs).length =
        (stream done).length + buffer.length + chunk.length by simp at hlen; omega] at hend

theorem exists_frames {ms : List Bytes} {buffer chunk later : Bytes}
    (hflat : buffer ++ (chunk ++ later) = stream ms) :
    ∃ fs ms' rest, ms = fs ++ ms' ∧ buffer ++ chunk = stream fs ++ rest ∧ Incomplete rest ms' ∧
      rest ++ later = stream ms' := by
  have hstart : buffer ++ chunk <+: stream ms := ⟨later, by simpa using hflat⟩
  obtain ⟨k, rest, hk, hrest⟩ := exists_incomplete hstart
  refine ⟨ms.take k, ms.drop k, rest, (List.take_append_drop k ms).symm, hk, hrest, ?_⟩
  have hsplit : stream (ms.take k) ++ (rest ++ later) =
      stream (ms.take k) ++ stream (ms.drop k) := by
    rw [← stream_append, List.take_append_drop, ← hflat, ← List.append_assoc, ← hk,
      List.append_assoc]
  exact List.append_cancel_left hsplit

theorem drop_of_lossless {fs : List Bytes} {rest : Bytes} (h : fs = [] ∨ rest = []) :
    rest.drop (stream fs).length = rest := by
  rcases h with rfl | rfl <;> simp

theorem length_read {fs : List Bytes} {buffer chunk rest : Bytes} (done : List Bytes)
    (h : buffer ++ chunk = stream fs ++ rest) :
    (stream done).length + buffer.length + chunk.length =
      (stream (done ++ fs)).length + rest.length := by
  have hlen := congrArg List.length h
  simp only [List.length_append, stream_append] at hlen ⊢
  omega

theorem readLoop_of_clean (done : List Bytes) {ms chunks : List Bytes} {buffer : Bytes}
    (hshort : Short ms) (hbuffer : Incomplete buffer ms)
    (hflat : buffer ++ chunks.flatten = stream ms)
    (hclean : CutsClean (done ++ ms) ((stream done).length + buffer.length) chunks) :
    ∃ fuel, readLoop fuel buffer (chunks.map .uint8Array) = some (ms, []) := by
  induction chunks generalizing done ms buffer with
  | nil =>
    cases ms with
    | nil =>
      rw [hbuffer.eq_nil_of_nil]
      exact ⟨0, rfl⟩
    | cons m ms =>
      have hlen := congrArg List.length hflat
      have hlt := hbuffer.2
      simp only [List.flatten_nil, List.append_nil, stream_cons, List.length_append] at hlen
      omega
  | cons chunk chunks ih =>
    obtain ⟨fs, ms', rest, rfl, hframes, hrest, hlater⟩ := exists_frames hflat
    have hlossless := (cut_iff hbuffer hrest hframes).mp hclean.1
    have hkeep := drop_of_lossless hlossless
    obtain ⟨n, hn⟩ := readChunk_eq hshort hrest hframes
    have hstart := length_read done hframes
    obtain ⟨k, hk⟩ := ih (done ++ fs) (fun m hm => hshort m (by simp [hm])) hrest hlater
      (by simpa [← hstart] using hclean.2)
    refine ⟨max n k, readLoop_cons.mpr ⟨fs, rest, ?_, (ms', []), ?_, rfl⟩⟩
    · rw [readChunk_fuel (Nat.le_max_left n k) hn, hkeep]
    · exact readLoop_fuel (Nat.le_max_right n k) hk

theorem frameLoop_weight {n : Nat} {s r : Frames} (hnn : NoNegativeVarint s.buffer) {p : Nat}
    (hp : s.offset = p) (hle : p ≤ s.buffer.length) (h : frameLoop.run n s = some r) :
    (stream r.handled).length + r.unparsed.length ≤
        (stream s.handled).length + (s.buffer.length - p) ∧
      ∃ k, r.unparsed = s.buffer.drop k := by
  induction n generalizing s p with
  | zero => simp [While.run] at h
  | succ n ih =>
    rcases While.run_cases h with ⟨hc, rfl⟩ | ⟨hc, hb⟩ | ⟨t, m, hc, hb, hm, hr⟩
    · have hge : ¬ r.offset < r.buffer.length := by simpa [frameLoop] using hc
      rw [Frames.unparsed, if_neg hge]
      exact ⟨by simp, r.buffer.length, by simp⟩
    · have hlt : s.offset < s.buffer.length := by simpa [frameLoop] using hc
      have hpass : framePass s = .exit r := Option.some.inj hb
      rcases framePass_cases hlt with ⟨-, he⟩ | ⟨-, he⟩ <;> rw [hpass] at he <;> cases he
      rw [hp, slice_to_end _ _ hle]
      simp only [Frames.unparsed]
      split_ifs with hin
      · rw [slice_to_end _ _ (by omega), List.drop_drop]
        exact ⟨by rw [List.length_drop]; omega, _, rfl⟩
      · exact ⟨by simp, s.buffer.length, by simp⟩
    · obtain rfl : n = m := by omega
      have hlt : s.offset < s.buffer.length := by simpa [frameLoop] using hc
      have hpass : framePass s = .next t := Option.some.inj hb
      rcases framePass_cases hlt with ⟨-, he⟩ | ⟨hfull, he⟩ <;> rw [hpass] at he
      · cases he
      obtain ⟨len, hval⟩ : ∃ len : Nat, (readVarint s.buffer s.offset).1 = len :=
        ⟨_, (Int.toNat_of_nonneg (hp ▸ hnn p)).symm⟩
      -- the prefix that was read is at least as wide as the one a sender would write
      have hmin := length_encode_le_count hval
      have h31 : len < 2 ^ 31 := by
        have hlt := BitVec.toInt_lt (x := (readVarintLoop (bytesFrom s.buffer s.offset) 0 0 0).1)
        simp only [readVarint] at hval
        omega
      rw [hval] at hfull he
      generalize (readVarint s.buffer s.offset).2 = lenBytes at hfull he hmin
      have hmsg : (slice s.buffer (s.offset + lenBytes)
          (s.offset + lenBytes + len)).length = len := by
        rw [hp, ← Int.natCast_add, ← Int.natCast_add, length_slice (by omega) (by omega)]
        omega
      generalize slice s.buffer (s.offset + lenBytes) (s.offset + lenBytes + len) = msg at he hmsg
      cases he
      obtain ⟨hw, k, hk⟩ := ih (s := { s with
          offset := s.offset + (lenBytes + len), handled := s.handled ++ [msg] })
        (p := p + (lenBytes + len)) hnn (by simp only; omega) (by simp only; omega) hr
      refine ⟨?_, k, hk⟩
      have hframe : (stream [msg]).length = (Leb128.encode len).length + len := by
        simp [encodeWithLengthPrefix_eq (hmsg ▸ h31), hmsg]
      simp only [stream_append, List.length_append, hframe] at hw
      omega

theorem readLoop_weight {fuel : Nat} {buffer left : Bytes} {chunks hs : List Bytes}
    (hnn : NoNegativeVarint (buffer ++ chunks.flatten))
    (h : readLoop fuel buffer (chunks.map .uint8Array) = some (hs, left)) :
    (stream hs).length + left.length ≤ buffer.length + chunks.flatten.length := by
  induction chunks generalizing buffer hs with
  | nil =>
    cases h
    simp
  | cons chunk chunks ih =>
    obtain ⟨hs₁, b, hc, ⟨hs₂, left'⟩, hr, he⟩ := readLoop_cons.mp h
    cases he
    obtain ⟨r, hrun, hrb⟩ := Option.map_eq_some_iff.mp hc
    cases hrb
    rw [List.flatten_cons, ← List.append_assoc] at hnn
    have hbuf : concatBytes [buffer, (Chunk.uint8Array chunk).bytes] = buffer ++ chunk := by
      simp [concatBytes, Chunk.bytes]
    rw [hbuf] at hrun
    obtain ⟨hw, k, hk⟩ := frameLoop_weight (s := { buffer := buffer ++ chunk }) (p := 0)
      hnn.of_append rfl (Nat.zero_le _) hrun
    -- what is kept is a tail of what was read
    have hnn' : NoNegativeVarint (r.unparsed ++ chunks.flatten) := by
      by_cases hkl : k ≤ (buffer ++ chunk).length
      · rw [hk, ← List.drop_append_of_le_length hkl]
        exact hnn.drop k
      · rw [hk, List.drop_eq_nil_of_le (by simp only; omega)]
        have := hnn.drop (buffer ++ chunk).length
        rwa [List.drop_left] at this
    have h₂ := ih hnn' hr
    simp only [stream_append, List.flatten_cons, List.length_append, stream_nil,
      List.length_nil] at hw h₂ ⊢
    omega

theorem clean_of_readLoop (done : List Bytes) {ms chunks : List Bytes} {buffer : Bytes} {fuel : Nat}
    (hshort : Short ms) (hbuffer : Incomplete buffer ms)
    (hflat : buffer ++ chunks.flatten = stream ms) (hnn : NoNegativeVarint (stream ms))
    (h : readLoop fuel buffer (chunks.map .uint8Array) = some (ms, [])) :
    CutsClean (done ++ ms) ((stream done).length + buffer.length) chunks := by
  induction chunks generalizing done ms buffer with
  | nil => trivial
  | cons chunk chunks ih =>
    obtain ⟨fs, ms', rest, rfl, hframes, hrest, hlater⟩ := exists_frames hflat
    obtain ⟨n, hn⟩ := readChunk_eq hshort hrest hframes
    obtain ⟨hs₁, b, hc, ⟨hs₂, left⟩, hr, he⟩ := readLoop_cons.mp h
    have hsame := readChunk_fuel (Nat.le_max_left n fuel) hn
    rw [readChunk_fuel (Nat.le_max_right n fuel) hc] at hsame
    cases hsame
    simp only [Prod.mk.injEq, List.append_cancel_left_eq] at he
    obtain ⟨rfl, rfl⟩ := he
    have hnn' : NoNegativeVarint (stream ms') := by
      have hdrop := hnn.drop (stream fs).length
      rwa [stream_append, List.drop_left] at hdrop
    have hkept : NoNegativeVarint (rest.drop (stream fs).length ++ chunks.flatten) := by
      by_cases hle : (stream fs).length ≤ rest.length
      · rw [← List.drop_append_of_le_length hle, hlater]
        exact hnn'.drop _
      · rw [List.drop_eq_nil_of_le (by omega)]
        have hdrop := hnn'.drop rest.length
        rwa [← hlater, List.drop_left] at hdrop
    -- what was trimmed away is missing at the end
    have hweight := readLoop_weight hkept hr
    have hlen := congrArg List.length hlater
    simp only [List.length_append, List.length_drop, List.length_nil] at hweight hlen
    have hlossless : fs = [] ∨ rest = [] := by
      cases fs with
      | nil => exact Or.inl rfl
      | cons f fs =>
        have hpos := length_encodeWithLengthPrefix_pos (hshort f (by simp))
        rw [stream_cons, List.length_append] at hweight
        exact Or.inr (List.length_eq_zero_iff.mp (by omega))
    have hkeep := drop_of_lossless hlossless
    have hstart := length_read done hframes
    refine ⟨(cut_iff hbuffer hrest hframes).mpr hlossless, ?_⟩
    rw [hkeep] at hr
    have hrec := ih (done ++ fs) (fun m hm => hshort m (by simp [hm])) hrest hlater hnn' hr
    rwa [← hstart, List.append_assoc] at hrec

theorem incomplete_nil {ms : List Bytes} (hshort : Short ms) : Incomplete [] ms := by
  cases ms with
  | nil => rfl
  | cons m ms => exact ⟨List.nil_prefix, length_encodeWithLengthPrefix_pos (hshort m (by simp))⟩

theorem delivers_of_clean {ms chunks : List Bytes} (hshort : Short ms)
    (hflat : chunks.flatten = stream ms) (hclean : CutsClean ms 0 chunks) : Delivers ms chunks :=
  readLoop_of_clean [] hshort (incomplete_nil hshort) hflat hclean

theorem clean_of_delivers {ms chunks : List Bytes} (hshort : Short ms)
    (hflat : chunks.flatten = stream ms) (hnn : NoNegativeVarint (stream ms))
    (h : Delivers ms chunks) : CutsClean ms 0 chunks := by
  obtain ⟨fuel, hfuel⟩ := h
  exact clean_of_readLoop [] hshort (incomplete_nil hshort) hflat hnn hfuel

theorem stream_length_congr {ms ns : List Bytes} (h : ms.map List.length = ns.map List.length) :
    (stream ms).length = (stream ns).length := by
  induction ms generalizing ns with
  | nil => cases ns <;> simp_all
  | cons m ms ih =>
    cases ns with
    | nil => simp at h
    | cons n ns =>
      rw [List.map_cons, List.map_cons, List.cons.injEq] at h
      simp [encodeWithLengthPrefix, concatBytes, h.1, ih h.2]

theorem frameEnd_congr {ms ns : List Bytes} (h : ms.map List.length = ns.map List.length)
    (p : Nat) : FrameEnd ms p ↔ FrameEnd ns p := by
  have htake : ∀ i, (stream (ms.take i)).length = (stream (ns.take i)).length := by
    intro i
    exact stream_length_congr (by rw [List.map_take, List.map_take, h])
  simp only [FrameEnd, htake]

theorem cutsClean_congr {ms ns chunks chunks' : List Bytes}
    (h : ms.map List.length = ns.map List.length)
    (hc : chunks.map List.length = chunks'.map List.length) (start : Nat) :
    CutsClean ms start chunks ↔ CutsClean ns start chunks' := by
  induction chunks generalizing chunks' start with
  | nil => cases chunks' <;> simp_all [CutsClean]
  | cons chunk chunks ih =>
    cases chunks' with
    | nil => simp at hc
    | cons chunk' chunks' =>
      rw [List.map_cons, List.map_cons, List.cons.injEq] at hc
      simp only [CutsClean, hc.1, frameEnd_congr h, ih hc.2]

def zeros (m : Bytes) : Bytes := List.replicate m.length 0

@[simp] theorem length_zeros (m : Bytes) : (zeros m).length = m.length := by simp [zeros]

theorem drop_stream_zeros {ms : List Bytes} (hshort : Short ms) (p : Nat) :
    (stream (ms.map zeros)).drop p = [] ∨
      ∃ n back, n < 2 ^ 31 ∧ (stream (ms.map zeros)).drop p = Leb128.encode n ++ back := by
  induction ms generalizing p with
  | nil => simp
  | cons m ms ih =>
    have hm := hshort m (by simp)
    have hframe : stream ((m :: ms).map zeros) =
        Leb128.encode m.length ++ (zeros m ++ stream (ms.map zeros)) := by
      simp [encodeWithLengthPrefix_eq (m := zeros m) (by simpa using hm)]
    rw [hframe, List.drop_append]
    by_cases hp : p < (Leb128.encode m.length).length
    · refine Or.inr ⟨m.length / 128 ^ p, _, ?_, by rw [Leb128.drop_encode hp]⟩
      exact Nat.lt_of_le_of_lt (Nat.div_le_self ..) hm
    · rw [List.drop_eq_nil_of_le (by omega), List.nil_append, List.drop_append, length_zeros]
      generalize p - (Leb128.encode m.length).length = q
      by_cases hq : q < m.length
      · refine Or.inr ⟨0, (zeros m).drop (q + 1) ++ (stream (ms.map zeros)).drop (q - m.length),
          by decide, ?_⟩
        rw [Leb128.encode_of_lt (by decide), zeros, List.drop_replicate, List.drop_replicate,
          show m.length - q = m.length - (q + 1) + 1 by omega, List.replicate_succ]
        rfl
      · rw [List.drop_eq_nil_of_le (by simp; omega), List.nil_append]
        exact ih (fun m hm => hshort m (by simp [hm])) _

theorem noNegativeVarint_zeros {ms : List Bytes} (hshort : Short ms) :
    NoNegativeVarint (stream (ms.map zeros)) := by
  intro p
  have hread := readVarint_drop (stream (ms.map zeros)) p 0
  simp only [Int.natCast_zero, Int.add_zero] at hread
  rw [hread]
  rcases drop_stream_zeros hshort p with h | ⟨n, back, hn, h⟩
  · rw [h]
    decide
  · have henc := readVarint_encode [] back hn
    rw [h]
    simp only [List.nil_append, List.length_nil, Int.natCast_zero] at henc
    rw [henc]
    exact Int.natCast_nonneg n

theorem delivers_layout_iff {ms chunks : List Bytes} (hshort : Short ms)
    (hflat : chunks.flatten = stream ms) :
    (∀ ms' chunks' : List Bytes, ms'.map List.length = ms.map List.length →
      chunks'.map List.length = chunks.map List.length → chunks'.flatten = stream ms' →
      Delivers ms' chunks') ↔ CutsClean ms 0 chunks := by
  constructor
  · intro h
    -- with zeros in the bodies no varint is negative, and the cuts are the same
    have hlen : (ms.map zeros).map List.length = ms.map List.length := by simp [Function.comp_def]
    have htotal := stream_length_congr hlen
    have hsum : (chunks.map List.length).sum = (stream (ms.map zeros)).length := by
      rw [htotal, ← hflat, List.length_flatten]
    have hcut := List.flatten_splitLengths (stream (ms.map zeros)) (chunks.map List.length)
      (by omega)
    have hmap := List.map_splitLengths_length (stream (ms.map zeros)) (chunks.map List.length)
      (by omega)
    have hshort' : Short (ms.map zeros) := by
      intro m hm
      obtain ⟨m', hm', rfl⟩ := List.mem_map.mp hm
      simpa using hshort m' hm'
    have hclean := clean_of_delivers hshort' hcut (noNegativeVarint_zeros hshort)
      (h _ _ hlen hmap hcut)
    exact (cutsClean_congr hlen hmap 0).mp hclean
  · intro hclean ms' chunks' hms hchunks hflat'
    have hshort' : Short ms' := by
      intro m hm
      have hmem : m.length ∈ ms.map List.length := hms ▸ List.mem_map_of_mem hm
      obtain ⟨m', hm', he⟩ := List.mem_map.mp hmem
      exact he ▸ hshort m' hm'
    exact delivers_of_clean hshort' hflat' ((cutsClean_congr hms hchunks 0).mpr hclean)

/-- The chunks deliver every list of messages with these lengths exactly when each chunk in
which a frame ends does itself end with a frame. For a single list with no negative varint
in it the same holds. -/
theorem delivers_iff_clean {ms chunks : List Bytes} (hshort : Short ms)
    (hflat : chunks.flatten = stream ms) :
    ((∀ ms' chunks' : List Bytes, ms'.map List.length = ms.map List.length →
      chunks'.map List.length = chunks.map List.length → chunks'.flatten = stream ms' →
      Delivers ms' chunks') ↔ CutsClean ms 0 chunks) ∧
    (NoNegativeVarint (stream ms) → (Delivers ms chunks ↔ CutsClean ms 0 chunks)) := by
  refine ⟨delivers_layout_iff hshort hflat, fun hnn => ⟨?_, delivers_of_clean hshort hflat⟩⟩
  exact clean_of_delivers hshort hflat hnn

def twoFrames : List Bytes := [[], [0]]

theorem short_twoFrames : Short twoFrames := by simp [Short, twoFrames]

theorem frameEnd_twoFrames {p : Nat} : FrameEnd twoFrames p ↔ p = 0 ∨ p = 1 ∨ p = 3 := by
  have h0 : (stream (twoFrames.take 0)).length = 0 := rfl
  have h1 : (stream (twoFrames.take 1)).length = 1 := by decide +kernel
  have h2 : ∀ i, (stream (twoFrames.take (i + 2))).length = 3 := by
    intro i
    rw [List.take_of_length_le (by simp [twoFrames])]
    decide +kernel
  constructor
  · rintro ⟨_ | _ | i, rfl⟩
    · exact Or.inl h0
    · exact Or.inr (Or.inl h1)
    · exact Or.inr (Or.inr (h2 i))
  · rintro (rfl | rfl | rfl)
    exacts [⟨0, h0⟩, ⟨1, h1⟩, ⟨2, h2 0⟩]

theorem delivers_iff_clean_twoFrames :
    Delivers twoFrames [[0], [1], [0]] ∧ ¬ Delivers twoFrames [[0, 1], [0]] := by
  have hnn := noNegativeVarint_zeros short_twoFrames
  rw [show twoFrames.map zeros = twoFrames from rfl] at hnn
  constructor
  · refine ((delivers_iff_clean short_twoFrames (by decide +kernel)).2 hnn).mpr ?_
    refine ⟨fun p hp hlo hhi => ?_, fun p hp hlo hhi => ?_, fun p hp hlo hhi => ?_, trivial⟩
    · exact frameEnd_twoFrames.mpr (Or.inr (Or.inl rfl))
    · rw [frameEnd_twoFrames] at hp
      simp only [List.length_singleton] at hlo hhi
      omega
    · exact frameEnd_twoFrames.mpr (Or.inr (Or.inr rfl))
  · intro h
    have hclean := ((delivers_iff_clean short_twoFrames (by decide +kernel)).2 hnn).mp h
    have := hclean.1 1
    simp [frameEnd_twoFrames] at this

theorem readLoop_twoFrames :
    readLoop 3 [] ([[0, 1], [0]].map .uint8Array) = some ([[], []], []) := by decide +kernel

theorem not_delivers_twoFrames : Short twoFrames ∧ [[0, 1], [0]].flatten = stream twoFrames ∧
    ¬ Delivers twoFrames [[0, 1], [0]] := by
  refine ⟨short_twoFrames, by decide +kernel, ?_⟩
  rintro ⟨fuel, hfuel⟩
  have hmax := readLoop_fuel (Nat.le_max_left 3 fuel) readLoop_twoFrames
  rw [readLoop_fuel (Nat.le_max_right 3 fuel) hfuel] at hmax
  simp [twoFrames] at hmax

example : readLoop 9 [] ([[1, 0, 6, 0],
    [6, 0, 6, 0, 6, 0, 6, 0xFA, 0xFF, 0xFF, 0xFF, 0x0F, 0]].map .uint8Array) =
      some ([[0], [0, 6, 0, 6, 0, 6], [], [0xFA, 0xFF, 0xFF, 0xFF, 0x0F, 0]], []) := by
  decide +kernel

end IpfsShard.Bitswap
