import IpfsShard.Codec.BitswapCodec
import IpfsShard.Lib.Cursor

/-! `_readLoop` of a stream: chunks are collected in a buffer, and an inner `while` loop
takes complete frames off it. -/

namespace IpfsShard.Bitswap
open Codec Loop Cursor

inductive Chunk where
  | uint8Array (bytes : Bytes)
  | uint8ArrayList (segments : List Bytes)

/-- `Number(segment)`, converted to a byte: the number in it when there is exactly one, 0
for the empty segment and for `NaN`. -/
def segmentToUint8 : Bytes → UInt8
  | [b] => b
  | _ => 0

/-- Iterating a `Uint8ArrayList` yields its segments, not its bytes. -/
def Chunk.bytes : Chunk → Bytes
  | uint8Array bytes => bytes
  | uint8ArrayList segments => segments.map segmentToUint8

structure Frames where
  buffer : Bytes
  offset : Int := 0
  handled : List Bytes := []

def framePass (s : Frames) : Pass Frames :=
  if s.offset ≥ s.buffer.length then .exit s
  else
    let (msgLen, lenBytes) := readVarint s.buffer s.offset
    if s.offset + lenBytes + msgLen > s.buffer.length then
      -- trimmed here, and behind the loop once more by the same offset
      .exit { s with buffer := slice s.buffer s.offset s.buffer.length }
    else
      let msg := slice s.buffer (s.offset + lenBytes) (s.offset + lenBytes + msgLen)
      .next { s with offset := s.offset + (lenBytes + msgLen), handled := s.handled ++ [msg] }

def frameLoop : While Frames where
  cond s := s.offset < s.buffer.length
  body s := some (framePass s)

def Frames.unparsed (s : Frames) : Bytes :=
  if s.offset < s.buffer.length then slice s.buffer s.offset s.buffer.length else []

def readChunk (fuel : Nat) (buffer : Bytes) (chunk : Chunk) : Option (List Bytes × Bytes) :=
  (frameLoop.run fuel { buffer := concatBytes [buffer, chunk.bytes] }).map
    fun s => (s.handled, s.unparsed)

def readLoop (fuel : Nat) : Bytes → List Chunk → Option (List Bytes × Bytes)
  | buffer, [] => some ([], buffer)
  | buffer, chunk :: chunks =>
    match readChunk fuel buffer chunk with
    | none => none
    | some (handled, buffer) =>
      (readLoop fuel buffer chunks).map fun r => (handled ++ r.1, r.2)

/-- The width of the frame in front of `bytes`, length prefix included; `none` while it is
incomplete. -/
def frameWidth (bytes : Bytes) : Option Int :=
  let (msgLen, lenBytes) := readVarint bytes 0
  if lenBytes + msgLen > bytes.length then none else some (lenBytes + msgLen)

/-- Read frame by frame, no complete frame has a declared width of zero or less. -/
def FramesPositive (bytes : Bytes) : Prop := Positive frameWidth (fun _ => True) bytes

/-- The inner loop ends, every pass breaks or increases `offset`, and it hands over at most
as many messages as there are bytes in the buffer. -/
def FrameProgress (buffer : Bytes) : Prop :=
  (∃ r, frameLoop.Ends { buffer } r ∧ r.handled.length ≤ buffer.length) ∧
    frameLoop.Advances (·.offset) { buffer }

theorem frameWidth_drop {buffer : Bytes} {p : Nat} (hp : p ≤ buffer.length) :
    frameWidth (buffer.drop p) =
      if (p : Int) + (readVarint buffer p).2 + (readVarint buffer p).1 > buffer.length then none
      else some ((readVarint buffer p).2 + (readVarint buffer p).1) := by
  have hread := readVarint_drop buffer p 0
  simp only [Int.natCast_zero, Int.add_zero] at hread
  simp only [frameWidth, hread, List.length_drop]
  congr 1
  simp only [gt_iff_lt, eq_iff_iff]
  omega

theorem framePass_cases {s : Frames} (hlt : s.offset < s.buffer.length) :
    let v := readVarint s.buffer s.offset
    (s.offset + v.2 + v.1 > s.buffer.length ∧
      framePass s = .exit { s with buffer := slice s.buffer s.offset s.buffer.length }) ∨
    (s.offset + v.2 + v.1 ≤ s.buffer.length ∧
      framePass s = .next { s with
        offset := s.offset + (v.2 + v.1)
        handled := s.handled ++ [slice s.buffer (s.offset + v.2) (s.offset + v.2 + v.1)] }) := by
  simp only [framePass, if_neg (show ¬ s.offset ≥ s.buffer.length by omega)]
  split_ifs with h
  · exact Or.inl ⟨h, rfl⟩
  · exact Or.inr ⟨by omega, rfl⟩

theorem framePass_next {s t : Frames} {p : Nat} (hp : s.offset = p) (hlt : p < s.buffer.length)
    (h : framePass s = .next t) :
    t.buffer = s.buffer ∧ t.handled.length = s.handled.length + 1 ∧
      t.offset ≤ s.buffer.length ∧
      ∃ n, frameWidth (s.buffer.drop p) = some n ∧ t.offset = p + n := by
  rw [frameWidth_drop (Nat.le_of_lt hlt), ← hp]
  rcases framePass_cases (s := s) (by omega) with ⟨hw, he⟩ | ⟨hw, he⟩
  · rw [he] at h
    cases h
  · rw [he] at h
    cases h
    rw [if_neg (by omega)]
    exact ⟨rfl, by simp, by simp only; omega, _, rfl, rfl⟩

theorem framePass_exit {s t : Frames} {p : Nat} (hp : s.offset = p) (hlt : p < s.buffer.length)
    (h : framePass s = .exit t) :
    t.handled = s.handled ∧ frameWidth (s.buffer.drop p) = none := by
  rw [frameWidth_drop (Nat.le_of_lt hlt), ← hp]
  rcases framePass_cases (s := s) (by omega) with ⟨hw, he⟩ | ⟨hw, he⟩
  · rw [he] at h
    cases h
    exact ⟨rfl, if_pos (by omega)⟩
  · rw [he] at h
    cases h

theorem frameLoop_visits {buffer : Bytes} {s : Frames} (h : frameLoop.Visits { buffer } s) :
    s.buffer = buffer := by
  refine h.invariant (I := fun s => s.buffer = buffer) rfl ?_
  intro t u ht hc hb
  simp only [frameLoop, Option.some.injEq, framePass] at hb
  split_ifs at hb
  cases hb
  exact ht

theorem frameLoop_follows (buffer : Bytes) :
    Follows frameWidth buffer frameLoop (·.offset) { buffer } where
  start := rfl
  cond s hv := by simp [frameLoop, frameLoop_visits hv]
  next s t hv hc hb p hp := by
    have hlt : p < s.buffer.length := by simpa [frameLoop, hp] using hc
    obtain ⟨-, -, -, h⟩ := framePass_next hp hlt (Option.some.inj hb)
    rwa [frameLoop_visits hv] at h
  exit s t hv hc hb p hp := by
    have hlt : p < s.buffer.length := by simpa [frameLoop, hp] using hc
    have h := (framePass_exit hp hlt (Option.some.inj hb)).2
    rwa [frameLoop_visits hv] at h

theorem handled_le_offset {buffer : Bytes} (hadv : frameLoop.Advances (·.offset) { buffer })
    {s : Frames} (hv : frameLoop.Visits { buffer } s) :
    (s.handled.length : Int) ≤ s.offset ∧ s.offset ≤ buffer.length := by
  induction hv with
  | start => exact ⟨Int.le_refl 0, by simp⟩
  | @next s t hv hc hb ih =>
    obtain ⟨p, hp⟩ : ∃ p : Nat, s.offset = p := ⟨s.offset.toNat, by omega⟩
    have hlt : p < s.buffer.length := by simpa [frameLoop, hp] using hc
    obtain ⟨-, hlen, hle, -⟩ := framePass_next hp hlt (Option.some.inj hb)
    have hst : s.offset < t.offset := hadv s t hv hc hb
    rw [frameLoop_visits hv] at hle
    omega

theorem handled_length_le {buffer : Bytes} {r : Frames} (hend : frameLoop.Ends { buffer } r)
    (hadv : frameLoop.Advances (·.offset) { buffer }) : r.handled.length ≤ buffer.length := by
  rcases hend.visits with ⟨hv, -⟩ | ⟨s, hv, hc, hb⟩
  · have := handled_le_offset hadv hv
    omega
  · have hs := handled_le_offset hadv hv
    obtain ⟨p, hp⟩ : ∃ p : Nat, s.offset = p := ⟨s.offset.toNat, by omega⟩
    have hlt : p < s.buffer.length := by simpa [frameLoop, hp] using hc
    rw [(framePass_exit hp hlt (Option.some.inj hb)).1]
    omega

theorem frameProgress_iff (buffer : Bytes) : FrameProgress buffer ↔ FramesPositive buffer := by
  have hiff := (frameLoop_follows buffer).advances_iff (by simp [frameLoop])
  constructor
  · exact fun h => hiff.mp h.2
  · intro h
    obtain ⟨r, hr⟩ := (frameLoop_follows buffer).run h (by simp [frameLoop])
    exact ⟨⟨r, ⟨_, hr⟩, handled_length_le ⟨_, hr⟩ (hiff.mpr h)⟩, hiff.mpr h⟩

/-- A length prefix that declares -5 bytes, as many as it has itself. -/
def standingFrame : Bytes := [0xFB, 0xFF, 0xFF, 0xFF, 0x0F]

theorem frameLoop_standing (fuel : Nat) :
    frameLoop.run fuel { buffer := standingFrame } = none := by
  refine While.run_eq_none (I := fun s => s.buffer = standingFrame ∧ s.offset = 0) ?_
    ⟨rfl, rfl⟩ fuel
  rintro ⟨buffer, offset, handled⟩ ⟨rfl, rfl⟩
  exact ⟨rfl, Or.inr ⟨⟨standingFrame, 0, handled ++ [[]]⟩, rfl, rfl, rfl⟩⟩

theorem not_frameProgress_standing : ¬ FrameProgress standingFrame := by
  rintro ⟨⟨r, ⟨fuel, hrun⟩, -⟩, -⟩
  rw [frameLoop_standing] at hrun
  cases hrun

end IpfsShard.Bitswap
