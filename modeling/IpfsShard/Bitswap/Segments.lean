import IpfsShard.Bitswap.ReadLoop
import IpfsShard.Lib.Segments

/-! The two kinds of chunks against each other: the bytes of a chunk that is a list of segments,
and what the read loop makes of them. -/

namespace IpfsShard.Bitswap
open Codec Segments

namespace Chunk

def content : Chunk → Bytes
  | uint8Array bytes => bytes
  | uint8ArrayList segments => segments.flatten

def Bytewise : Chunk → Prop
  | uint8Array _ => True
  | uint8ArrayList segments => Aligned 0 segments

def joined (chunk : Chunk) : Chunk := uint8Array chunk.content

end Chunk

theorem segmentToUint8_eq : segmentToUint8 = only 0 := by
  funext segment
  match segment with
  | [] => rfl
  | [_] => rfl
  | _ :: _ :: _ => rfl

theorem Chunk.bytes_eq_content_iff (chunk : Chunk) :
    chunk.bytes = chunk.content ↔ chunk.Bytewise := by
  cases chunk with
  | uint8Array bytes => exact iff_of_true rfl trivial
  | uint8ArrayList segments =>
    show segments.map segmentToUint8 = segments.flatten ↔ _
    rw [segmentToUint8_eq]
    exact map_eq_iff_aligned

theorem readChunk_joined {fuel : Nat} {buffer : Bytes} {chunk : Chunk}
    (h : chunk.bytes = chunk.content) :
    readChunk fuel buffer chunk.joined = readChunk fuel buffer chunk := by
  have hbytes : chunk.joined.bytes = chunk.bytes := h.symm
  rw [readChunk, readChunk, hbytes]

theorem readLoop_joined {fuel : Nat} {buffer : Bytes} {chunks : List Chunk}
    (h : ∀ chunk ∈ chunks, chunk.bytes = chunk.content) :
    readLoop fuel buffer (chunks.map Chunk.joined) = readLoop fuel buffer chunks := by
  induction chunks generalizing buffer with
  | nil => rfl
  | cons chunk chunks ih =>
    obtain ⟨hchunk, hrest⟩ := List.forall_mem_cons.mp h
    rw [List.map_cons, readLoop, readLoop, readChunk_joined hchunk]
    cases readChunk fuel buffer chunk with
    | none => rfl
    | some r => simp only [ih hrest]

/-- The loop appends the bytes of every chunk, and so hands over the same messages as for chunks in
one piece, exactly if the lists among them are bytewise. -/
theorem readLoop_segments_iff (chunks : List Chunk) :
    ((∀ chunk ∈ chunks, chunk.bytes = chunk.joined.bytes) ∧ ∀ fuel buffer,
        readLoop fuel buffer chunks = readLoop fuel buffer (chunks.map Chunk.joined)) ↔
      ∀ chunk ∈ chunks, chunk.Bytewise := by
  constructor
  · rintro ⟨hbytes, -⟩ chunk hmem
    exact chunk.bytes_eq_content_iff.mp (hbytes chunk hmem)
  · intro h
    have hbytes : ∀ chunk ∈ chunks, chunk.bytes = chunk.content := fun chunk hmem =>
      chunk.bytes_eq_content_iff.mpr (h chunk hmem)
    exact ⟨hbytes, fun fuel buffer => (readLoop_joined hbytes).symm⟩

def oneSegment : Chunk := .uint8ArrayList [[1, 5]]

theorem readLoop_oneSegment :
    readLoop 5 [] [oneSegment] = some ([[]], []) ∧
      readLoop 5 [] [oneSegment.joined] = some ([[5]], []) ∧
      ¬ ((∀ chunk ∈ [oneSegment], chunk.bytes = chunk.joined.bytes) ∧ ∀ fuel buffer,
        readLoop fuel buffer [oneSegment] =
          readLoop fuel buffer ([oneSegment].map Chunk.joined)) := by
  have hlist : readLoop 5 [] [oneSegment] = some ([[]], []) := by decide +kernel
  have harray : readLoop 5 [] [oneSegment.joined] = some ([[5]], []) := by decide +kernel
  refine ⟨hlist, harray, ?_⟩
  rintro ⟨-, hsame⟩
  have hboth := hsame 5 []
  rw [List.map_singleton, hlist, harray] at hboth
  cases hboth

end IpfsShard.Bitswap
