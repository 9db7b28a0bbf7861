import IpfsShard.Bitswap.Framing

/-! One direction of a stream between two nodes: the bytes in flight, and the buffer of the read
loop at the other end. -/

namespace IpfsShard.Bitswap
open Codec

/-- The last field is observed, not read: the messages that were written and not handed over yet. -/
structure Channel where
  incoming : Bytes := []
  buffer : Bytes := []
  messages : List Bytes := []
  deriving DecidableEq

namespace Channel

/-- `stream.send` of a message with its length prefix. -/
def write (c : Channel) (message : Bytes) : Channel :=
  { c with
    incoming := c.incoming ++ encodeWithLengthPrefix message
    messages := c.messages ++ [message] }

/-- A pass of `_readLoop` over the next `length` bytes. -/
def read (c : Channel) (length fuel : Nat) : Option (List Bytes × Channel) :=
  (readChunk fuel c.buffer (.uint8Array (c.incoming.take length))).map fun r =>
    (r.1, ⟨c.incoming.drop length, r.2, c.messages.drop r.1.length⟩)

structure Sound (c : Channel) : Prop where
  flat : c.buffer ++ c.incoming = stream c.messages
  incomplete : Incomplete c.buffer c.messages
  short : Short c.messages

def Clean (c : Channel) (length : Nat) : Prop :=
  CutsClean c.messages c.buffer.length [c.incoming.take length]

variable {c c' : Channel} {message : Bytes} {length fuel : Nat} {handled : List Bytes}

theorem sound_empty : Sound {} := ⟨rfl, rfl, fun _ hm => by cases hm⟩

theorem Sound.write (h : c.Sound) (hshort : message.length < 2 ^ 31) : (c.write message).Sound := by
  refine ⟨?_, ?_, List.forall_mem_append.mpr ⟨h.short, List.forall_mem_singleton.mpr hshort⟩⟩
  · simp only [Channel.write]
    rw [← List.append_assoc, h.flat, stream_append, stream_cons, stream_nil, List.append_nil]
  · have hincomplete := h.incomplete
    change Incomplete c.buffer (c.messages ++ [message])
    cases hmessages : c.messages with
    | nil =>
      rw [hmessages] at hincomplete
      rw [hincomplete.eq_nil_of_nil]
      exact ⟨List.nil_prefix, length_encodeWithLengthPrefix_pos hshort⟩
    | cons m ms =>
      rw [hmessages] at hincomplete
      exact hincomplete

theorem Sound.read (h : c.Sound) (hclean : c.Clean length)
    (hread : c.read length fuel = some (handled, c')) :
    c.messages = handled ++ c'.messages ∧ c'.Sound := by
  obtain ⟨r, hr, heq⟩ := Option.map_eq_some_iff.mp hread
  obtain ⟨rfl, rfl⟩ := Prod.ext_iff.mp heq
  have hflat : c.buffer ++ (c.incoming.take length ++ c.incoming.drop length) =
      stream c.messages := by
    rw [List.take_append_drop]
    exact h.flat
  obtain ⟨fs, ms, rest, hms, hframes, hrest, hlater⟩ := exists_frames hflat
  have hcut := hclean.1
  have hincomplete := h.incomplete
  have hshort := h.short
  rw [hms] at hcut hincomplete hshort
  have hlossless := (@cut_iff [] _ _ _ _ _ hincomplete hrest hframes).mp (by simpa using hcut)
  obtain ⟨n, hn⟩ := readChunk_eq hshort hrest hframes
  have hsame := readChunk_fuel (Nat.le_max_left n fuel) hn
  rw [readChunk_fuel (Nat.le_max_right n fuel) hr, drop_of_lossless hlossless] at hsame
  obtain rfl := Option.some.inj hsame
  have hdrop : c.messages.drop fs.length = ms := by rw [hms, List.drop_left]
  refine ⟨?_, ?_, ?_, ?_⟩
  · rw [hdrop, hms]
  · rw [hdrop]
    exact hlater
  · rw [hdrop]
    exact hrest
  · rw [hdrop]
    exact fun m hm => hshort m (List.mem_append_right _ hm)

theorem Sound.exists_read (h : c.Sound) : c.Clean c.incoming.length ∧
    ∃ n c', (∀ fuel, n ≤ fuel → c.read c.incoming.length fuel = some (c.messages, c')) ∧
      c'.messages = [] := by
  have hflat : c.buffer ++ c.incoming.take c.incoming.length = stream c.messages ++ [] := by
    rw [List.take_length, List.append_nil]
    exact h.flat
  have hshort : Short (c.messages ++ []) := by
    rw [List.append_nil]
    exact h.short
  constructor
  · have hincomplete := h.incomplete
    rw [← List.append_nil c.messages] at hincomplete
    have hcut := (@cut_iff [] _ _ _ _ _ hincomplete (show Incomplete [] [] from rfl) hflat).mpr
      (Or.inr rfl)
    exact ⟨by simpa using hcut, trivial⟩
  · obtain ⟨n, hn⟩ := readChunk_eq hshort (show Incomplete [] [] from rfl) hflat
    refine ⟨n, ⟨c.incoming.drop c.incoming.length, List.drop (stream c.messages).length [],
      c.messages.drop c.messages.length⟩, fun fuel hle => ?_, List.drop_length⟩
    rw [Channel.read, readChunk_fuel hle hn]
    rfl

theorem Sound.incoming_eq_nil_iff (h : c.Sound) : c.incoming = [] ↔ c.messages = [] := by
  have hflat := h.flat
  constructor
  · intro hincoming
    have hincomplete := h.incomplete
    rw [hincoming, List.append_nil] at hflat
    cases hmessages : c.messages with
    | nil => rfl
    | cons m ms =>
      rw [hmessages] at hincomplete hflat
      have hlength := congrArg List.length hflat
      rw [stream_cons, List.length_append] at hlength
      exact absurd hincomplete.2 (by omega)
  · intro hmessages
    rw [hmessages, stream_nil, List.append_eq_nil_iff] at hflat
    exact hflat.2

end Channel
end IpfsShard.Bitswap
