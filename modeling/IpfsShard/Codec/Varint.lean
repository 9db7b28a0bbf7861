import IpfsShard.Lib.Leb128
import Mathlib.Algebra.Ring.Int.Defs
import Mathlib.Algebra.Ring.Nat
import Mathlib.Tactic.Common

/-! Byte arrays and the varint functions of the bitswap codec. Numbers are JavaScript
numbers with integer values; the bit operators work on their signed 32-bit images. -/

namespace IpfsShard

abbrev Bytes := List UInt8

namespace Codec

/-- The conversion of `new Uint8Array(numbers)`. -/
def toUint8 (n : Int) : UInt8 := UInt8.ofNat (n % 256).toNat

def sliceIndex (length : Nat) (i : Int) : Nat :=
  if i < 0 then (length + i).toNat else min i.toNat length

def slice (bytes : Bytes) (start stop : Int) : Bytes :=
  (bytes.drop (sliceIndex bytes.length start)).take
    (sliceIndex bytes.length stop - sliceIndex bytes.length start)

/-- The bytes at `offset` and after it; a negative index of a `Uint8Array` is `undefined`. -/
def bytesFrom (buf : Bytes) (offset : Int) : Bytes :=
  if offset < 0 then [] else buf.drop offset.toNat

def appendVarint (n : Int) : Bytes :=
  if n > 0x7f then toUint8 (n % 0x80 + 0x80) :: appendVarint (n % 2 ^ 32 / 2 ^ 7) else [toUint8 n]
termination_by n.toNat
decreasing_by omega

/-- The loop of `readVarint` on the bytes that are left: the result so far, the shift and
the number of bytes read. Past the end `b` is `undefined`, which the bit operators take
for 0. A shift count is taken modulo 32. -/
def readVarintLoop : Bytes → BitVec 32 → Nat → Nat → BitVec 32 × Nat
  | [], result, _, count => (result, count + 1)
  | b :: rest, result, shift, count =>
    let result := result ||| (BitVec.ofNat 32 (b &&& 0x7f).toNat <<< (shift % 32))
    if b &&& 0x80 = 0 then (result, count + 1)
    else readVarintLoop rest result (shift + 7) (count + 1)

def readVarint (buf : Bytes) (offset : Int) : Int × Nat :=
  let (result, count) := readVarintLoop (bytesFrom buf offset) 0 0 0
  (result.toInt, count)

theorem and_0x7f (b : UInt8) : (b &&& 0x7f).toNat = b.toNat % 128 := by
  rw [UInt8.toNat_and]
  exact Nat.and_two_pow_sub_one_eq_mod b.toNat 7

theorem and_0x80_eq_zero_iff (b : UInt8) : b &&& 0x80 = 0 ↔ b.toNat < 128 := by
  have hall : ∀ i : Fin 256, (i.val &&& 128 = 0 ↔ i.val < 128) := by decide +kernel
  have hb := hall ⟨b.toNat, b.toNat_lt⟩
  rw [← hb, ← UInt8.toNat_inj, UInt8.toNat_and]
  rfl

theorem and_0x80_ne_zero {b : UInt8} (h : 128 ≤ b.toNat) : ¬ b &&& 0x80 = 0 := by
  rw [and_0x80_eq_zero_iff]
  exact Nat.not_lt.mpr h

theorem two_pow_add_seven (s : Nat) : 2 ^ (s + 7) = 128 * 2 ^ s := by
  rw [Nat.pow_add, Nat.mul_comm]

theorem toUint8_natCast {n : Nat} (h : n < 256) : toUint8 n = UInt8.ofNat n := by
  unfold toUint8
  congr 1
  omega

theorem appendVarint_eq {n : Nat} (h : n < 2 ^ 32) : appendVarint n = Leb128.encode n := by
  induction n using Nat.strongRecOn with
  | ind n ih =>
    by_cases hn : n < 128
    · rw [appendVarint, if_neg (by omega), Leb128.encode_of_lt hn, toUint8_natCast (by omega)]
    · have hbyte : ((n : Int) % 0x80 + 0x80) = ((n % 128 + 128 : Nat) : Int) := by omega
      have hnext : ((n : Int) % 2 ^ 32 / 2 ^ 7) = ((n / 128 : Nat) : Int) := by omega
      rw [appendVarint, if_pos (by omega), Leb128.encode_of_ge (by omega), hbyte, hnext,
        toUint8_natCast (by omega), ih (n / 128) (by omega) (by omega)]

@[simp] theorem bytesFrom_append (front back : Bytes) :
    bytesFrom (front ++ back) front.length = back := by
  rw [bytesFrom, if_neg (by omega), Int.toNat_natCast, List.drop_left]

theorem bytesFrom_natCast (buf : Bytes) (offset : Nat) :
    bytesFrom buf offset = buf.drop offset := by
  rw [bytesFrom, if_neg (by omega), Int.toNat_natCast]

theorem toNat_or_shiftLeft {r : BitVec 32} {x s : Nat} (hr : r.toNat < 2 ^ s)
    (hx : x * 2 ^ s < 2 ^ 32) : (r ||| BitVec.ofNat 32 x <<< s).toNat = r.toNat + x * 2 ^ s := by
  have hx32 : x < 2 ^ 32 := Nat.lt_of_le_of_lt (Nat.le_mul_of_pos_right x (Nat.two_pow_pos s)) hx
  rw [BitVec.toNat_or, BitVec.toNat_shiftLeft, BitVec.toNat_ofNat, Nat.mod_eq_of_lt hx32,
    Nat.shiftLeft_eq, Nat.mod_eq_of_lt hx, Nat.or_comm, Nat.mul_comm,
    ← Nat.two_pow_add_eq_or_of_lt hr, Nat.add_comm]

theorem toInt_ofNat_eq_iff {n : Nat} (h : n < 2 ^ 32) :
    (BitVec.ofNat 32 n).toInt = n ↔ n < 2 ^ 31 := by
  have hn : (BitVec.ofNat 32 n).toNat = n := by
    rw [BitVec.toNat_ofNat, Nat.mod_eq_of_lt h]
  constructor
  · intro hread
    have hhalf : 2 * (BitVec.ofNat 32 n).toInt < 2 ^ 32 := BitVec.two_mul_toInt_lt
    omega
  · intro hlt
    have hhalf : 2 * (BitVec.ofNat 32 n).toNat < 2 ^ 32 := by omega
    rw [BitVec.toInt_eq_toNat_of_lt hhalf, hn]

theorem toNat_or_digit {r : BitVec 32} {d s : Nat} (hr : r.toNat < 2 ^ s)
    (hd : d * 2 ^ s < 2 ^ 32) :
    (r ||| BitVec.ofNat 32 d <<< (s % 32)).toNat = r.toNat + d * 2 ^ s := by
  by_cases hs : s < 32
  · rw [Nat.mod_eq_of_lt hs]
    exact toNat_or_shiftLeft hr hd
  · have hpow : 2 ^ 32 ≤ 2 ^ s := Nat.pow_le_pow_right (by decide) (Nat.le_of_not_lt hs)
    obtain rfl : d = 0 := by
      by_contra hne
      have hle := Nat.le_mul_of_pos_left (2 ^ s) (Nat.pos_of_ne_zero hne)
      omega
    simp

theorem readVarintLoop_append {l : Bytes} (h : Leb128.IsNumeral l) (rest : Bytes)
    (r : BitVec 32) (s k j : Nat) :
    readVarintLoop (l ++ rest) r s k = ((readVarintLoop l r s j).1, k + l.length) := by
  induction h generalizing r s k j with
  | last hb =>
    have hstop := (and_0x80_eq_zero_iff _).mpr hb
    rw [List.singleton_append, readVarintLoop, if_pos hstop, readVarintLoop, if_pos hstop]
    rfl
  | @next b l hb _ ih =>
    have hgo := and_0x80_ne_zero hb
    rw [List.cons_append, readVarintLoop, if_neg hgo, readVarintLoop, if_neg hgo,
      ih _ _ (k + 1) (j + 1), List.length_cons, Nat.add_assoc, Nat.add_comm 1]

theorem readVarintLoop_value {l : Bytes} (h : Leb128.IsNumeral l) {r : BitVec 32} {s k : Nat}
    (hr : r.toNat < 2 ^ s) (hn : Leb128.value l * 2 ^ s < 2 ^ 32) :
    (readVarintLoop l r s k).1.toNat = r.toNat + Leb128.value l * 2 ^ s := by
  induction h generalizing r s k with
  | @last b hb =>
    have hval : Leb128.value [b] = b.toNat % 128 := by
      rw [Leb128.value, Leb128.value, Nat.mul_zero, Nat.add_zero]
    rw [hval] at hn ⊢
    rw [readVarintLoop, if_pos ((and_0x80_eq_zero_iff b).mpr hb), and_0x7f]
    exact toNat_or_digit hr hn
  | @next b l hb _ ih =>
    have hgo := and_0x80_ne_zero hb
    have hpow := two_pow_add_seven s
    have hsplit : Leb128.value (b :: l) * 2 ^ s =
        b.toNat % 128 * 2 ^ s + Leb128.value l * 2 ^ (s + 7) := by
      rw [Leb128.value, hpow, Nat.add_mul, Nat.mul_comm 128, Nat.mul_assoc]
    have hdigit : b.toNat % 128 * 2 ^ s ≤ 127 * 2 ^ s := Nat.mul_le_mul_right _ (by omega)
    have hstep := toNat_or_digit hr (show b.toNat % 128 * 2 ^ s < 2 ^ 32 by omega)
    rw [readVarintLoop, if_neg hgo, and_0x7f, ih (by omega) (by omega), hstep, hsplit,
      Nat.add_assoc]

theorem readVarintLoop_truncated {t : Bytes} {s k : Nat} {r : BitVec 32}
    (ht : ∀ b ∈ t, 128 ≤ b.toNat) (hr : r.toNat < 2 ^ s) (hs : s + 7 * t.length < 32) :
    (readVarintLoop t r s k).1.toNat < 2 ^ (s + 7 * t.length) ∧
      (readVarintLoop t r s k).2 = k + t.length + 1 := by
  induction t generalizing s k r with
  | nil => simpa [readVarintLoop] using hr
  | cons b t ih =>
    rw [List.length_cons] at hs ⊢
    have hgo := and_0x80_ne_zero (ht b (List.mem_cons_self ..))
    have hpow := two_pow_add_seven s
    have hlow : b.toNat % 128 * 2 ^ s ≤ 127 * 2 ^ s := Nat.mul_le_mul_right _ (by omega)
    have h32 : 2 ^ (s + 7) ≤ 2 ^ 32 := Nat.pow_le_pow_right (by decide) (by omega)
    have hr7 : (r ||| BitVec.ofNat 32 (b.toNat % 128) <<< s).toNat < 2 ^ (s + 7) := by
      rw [toNat_or_shiftLeft hr (by omega)]
      omega
    rw [readVarintLoop, if_neg hgo, and_0x7f, Nat.mod_eq_of_lt (by omega : s < 32)]
    have h := ih (k := k + 1) (fun c hc => ht c (List.mem_cons_of_mem _ hc)) hr7 (by omega)
    refine ⟨?_, by omega⟩
    rw [show s + 7 * (t.length + 1) = s + 7 + 7 * t.length by omega]
    exact h.1

theorem readVarintLoop_count (l : Bytes) (r : BitVec 32) (s k : Nat) :
    k < (readVarintLoop l r s k).2 ∧
      (readVarintLoop l r s k).2 ≤ k + l.length + 1 := by
  induction l generalizing r s k with
  | nil => simp [readVarintLoop]
  | cons b l ih =>
    rw [readVarintLoop, List.length_cons]
    split
    · constructor <;> simp only <;> omega
    · have h := ih (r ||| (BitVec.ofNat 32 (b &&& 0x7f).toNat <<< (s % 32))) (s + 7) (k + 1)
      omega

theorem readVarintLoop_lt {l : Bytes} {r : BitVec 32} {s k : Nat} (hr : r.toNat < 2 ^ s) :
    (readVarintLoop l r s k).1.toNat <
      2 ^ (s + 7 * ((readVarintLoop l r s k).2 - k)) := by
  -- from here on every 32-bit number is below the bound
  by_cases hs : 25 < s
  · have hc := (readVarintLoop_count l r s k).1
    refine Nat.lt_of_lt_of_le (BitVec.isLt _) (Nat.pow_le_pow_right (by decide) ?_)
    omega
  induction l generalizing s k r with
  | nil =>
    rw [readVarintLoop]
    exact Nat.lt_of_lt_of_le hr (Nat.pow_le_pow_right (by decide) (Nat.le_add_right ..))
  | cons b l ih =>
    have hpow := two_pow_add_seven s
    have h32 : 2 ^ (s + 7) ≤ 2 ^ 32 := Nat.pow_le_pow_right (by decide) (by omega)
    have hlow : (b &&& 0x7f).toNat * 2 ^ s ≤ 127 * 2 ^ s :=
      Nat.mul_le_mul_right _ (by rw [and_0x7f]; omega)
    have hstep := toNat_or_shiftLeft hr (show (b &&& 0x7f).toNat * 2 ^ s < 2 ^ 32 by omega)
    rw [readVarintLoop, Nat.mod_eq_of_lt (show s < 32 by omega)]
    split
    · simp only [Nat.add_sub_cancel_left, Nat.mul_one]
      omega
    · have hcount := (readVarintLoop_count l
        (r ||| BitVec.ofNat 32 (b &&& 0x7f).toNat <<< s) (s + 7) (k + 1)).1
      by_cases hs7 : 25 < s + 7
      · refine Nat.lt_of_lt_of_le (BitVec.isLt _) (Nat.pow_le_pow_right (by decide) ?_)
        omega
      · have h := ih (s := s + 7) (k := k + 1)
          (r := r ||| BitVec.ofNat 32 (b &&& 0x7f).toNat <<< s) (by omega) hs7
        refine Nat.lt_of_lt_of_le h (Nat.pow_le_pow_right (by decide) ?_)
        omega

theorem readVarint_count_pos (buf : Bytes) (offset : Int) : 0 < (readVarint buf offset).2 :=
  (readVarintLoop_count (bytesFrom buf offset) 0 0 0).1

def readNumeral (n : Leb128.Numeral) : Int := (readVarint n.bytes 0).1

theorem readVarint_numeral (front back : Bytes) (n : Leb128.Numeral) :
    readVarint (front ++ (n.bytes ++ back)) front.length = (readNumeral n, n.bytes.length) := by
  have hloop := readVarintLoop_append n.isNumeral back 0 0 0 0
  have hstart : bytesFrom n.bytes 0 = n.bytes := bytesFrom_natCast n.bytes 0
  simpa [readVarint, readNumeral, hstart] using congrArg (fun p => (p.1.toInt, p.2)) hloop

theorem readNumeral_eq {n : Leb128.Numeral} (h : n.value < 2 ^ 32) :
    readNumeral n = (BitVec.ofNat 32 n.value).toInt := by
  have hval := readVarintLoop_value (k := 0) n.isNumeral (r := 0) (s := 0) (by decide)
    (by rw [Nat.pow_zero, Nat.mul_one]; exact h)
  have hvalue : n.value = (readVarintLoop n.bytes 0 0 0).1.toNat := by
    rw [hval, Nat.pow_zero, Nat.mul_one]
    exact (Nat.zero_add _).symm
  rw [hvalue, BitVec.ofNat_toNat, BitVec.setWidth_eq]
  rfl

theorem readNumeral_of_lt {n : Leb128.Numeral} (h : n.value < 2 ^ 31) :
    readNumeral n = n.value := by
  have h32 : n.value < 2 ^ 32 := by omega
  rw [readNumeral_eq h32, (toInt_ofNat_eq_iff h32).mpr h]

theorem readNumeral_ofNat {value : Nat} (h : value < 2 ^ 31) :
    readNumeral (.ofNat value) = value := by
  have hread := readNumeral_of_lt (n := .ofNat value) (by rwa [Leb128.Numeral.value_ofNat])
  rwa [Leb128.Numeral.value_ofNat] at hread

theorem readVarint_encode (front back : Bytes) {n : Nat} (h : n < 2 ^ 31) :
    readVarint (front ++ (Leb128.encode n ++ back)) front.length =
      ((n : Int), (Leb128.encode n).length) := by
  rw [← readNumeral_ofNat h]
  exact readVarint_numeral front back (.ofNat n)

theorem readVarint_appendVarint (front back : Bytes) {n : Nat} (h : n < 2 ^ 32) :
    readVarint (front ++ (appendVarint n ++ back)) front.length =
      ((BitVec.ofNat 32 n).toInt, (appendVarint n).length) := by
  have hvalue : (Leb128.Numeral.ofNat n).value = n := Leb128.Numeral.value_ofNat n
  have hread : readNumeral (.ofNat n) = (BitVec.ofNat 32 n).toInt := by
    rw [readNumeral_eq (by rwa [hvalue]), hvalue]
  rw [appendVarint_eq h, ← hread]
  exact readVarint_numeral front back (.ofNat n)

/-- `readVarint` gives the number that `appendVarint` has written between other bytes, and the
number of its bytes. -/
def ReadBack (front back : Bytes) (n : Int) : Prop :=
  readVarint (front ++ (appendVarint n ++ back)) front.length = (n, (appendVarint n).length)

/-- Of the numbers that `appendVarint` writes without loss, those below `2 ^ 31` are read back,
whatever is in front of them and behind them. -/
theorem readBack_iff (front back : Bytes) {n : Int} (hn : 0 ≤ n) (h : n < 2 ^ 32) :
    ReadBack front back n ↔ n < 2 ^ 31 := by
  obtain ⟨m, rfl⟩ := Int.eq_ofNat_of_zero_le hn
  have hm : m < 2 ^ 32 := by exact_mod_cast h
  have hlt : (m : Int) < 2 ^ 31 ↔ m < 2 ^ 31 := by omega
  unfold ReadBack
  rw [readVarint_appendVarint front back hm, Prod.mk.injEq, and_iff_left rfl,
    toInt_ofNat_eq_iff hm, hlt]

theorem readBack_twoBytes : ReadBack [0x08] [0x12] 300 :=
  (readBack_iff [0x08] [0x12] (by decide) (by decide)).mpr (by decide)

theorem appendVarint_signBit : appendVarint (2 ^ 31) = [0x80, 0x80, 0x80, 0x80, 0x08] := by
  have hencode : appendVarint (2 ^ 31) = Leb128.encode (2 ^ 31) := appendVarint_eq (by decide)
  rw [hencode]
  simp [Leb128.encode]

/-- The first number that is read as a negative one. -/
theorem not_readBack_signBit :
    readVarint (appendVarint (2 ^ 31)) 0 = (-2 ^ 31, 5) ∧ ¬ ReadBack [] [] (2 ^ 31) := by
  have hread : readVarint (appendVarint (2 ^ 31)) 0 = (-2 ^ 31, 5) := by
    rw [appendVarint_signBit]
    decide
  refine ⟨hread, fun h => ?_⟩
  unfold ReadBack at h
  rw [List.nil_append, List.append_nil] at h
  have hvalue := congrArg Prod.fst (hread.symm.trans h)
  exact absurd hvalue (by decide)

theorem readVarint_truncated (front : Bytes) {t : Bytes} (ht : ∀ b ∈ t, 128 ≤ b.toNat)
    (hlen : t.length ≤ 4) :
    0 ≤ (readVarint (front ++ t) front.length).1 ∧
      (readVarint (front ++ t) front.length).2 = t.length + 1 := by
  have h := readVarintLoop_truncated (s := 0) (k := 0) (r := 0) ht (by decide) (by omega)
  have hlt : 2 ^ (0 + 7 * t.length) ≤ 2 ^ 28 := Nat.pow_le_pow_right (by decide) (by omega)
  rw [readVarint, bytesFrom_append]
  refine ⟨?_, by simpa using h.2⟩
  show 0 ≤ (readVarintLoop t 0 0 0).1.toInt
  rw [BitVec.toInt_eq_toNat_of_lt (by omega)]
  omega

theorem readVarint_drop (bytes : Bytes) (p i : Nat) :
    readVarint bytes (p + i : Int) = readVarint (bytes.drop p) i := by
  have h : bytesFrom bytes (p + i : Int) = bytesFrom (bytes.drop p) i := by
    rw [← Int.natCast_add, bytesFrom_natCast, bytesFrom_natCast, List.drop_drop]
  simp only [readVarint, h]

theorem sliceIndex_of_le {length i : Nat} (h : i ≤ length) : sliceIndex length i = i := by
  rw [sliceIndex, if_neg (by omega), Int.toNat_natCast, Nat.min_eq_left h]

theorem slice_append (front body back : Bytes) :
    slice (front ++ (body ++ back)) front.length (front.length + body.length : Int) = body := by
  rw [slice, ← Int.natCast_add, sliceIndex_of_le (by simp), sliceIndex_of_le (by simp),
    List.drop_left, Nat.add_sub_cancel_left, List.take_left]

theorem slice_to_end (bytes : Bytes) (offset : Nat) (h : offset ≤ bytes.length) :
    slice bytes offset bytes.length = bytes.drop offset := by
  rw [slice, sliceIndex_of_le h, sliceIndex_of_le (Nat.le_refl _), List.take_of_length_le (by simp)]

theorem length_slice {bytes : Bytes} {i j : Nat} (hij : i ≤ j) (hj : j ≤ bytes.length) :
    (slice bytes i j).length = j - i := by
  rw [slice, sliceIndex_of_le (Nat.le_trans hij hj), sliceIndex_of_le hj, List.length_take,
    List.length_drop]
  omega

theorem slice_length_le (bytes : Bytes) (start stop : Int) :
    (slice bytes start stop).length ≤ bytes.length := by
  rw [slice, List.length_take, List.length_drop]
  omega

theorem slice_drop (bytes : Bytes) {p : Nat} (hp : p ≤ bytes.length) {i j : Int} (hi : 0 ≤ i)
    (hj : 0 ≤ j) : slice bytes (p + i) (p + j) = slice (bytes.drop p) i j := by
  have hindex : ∀ k : Int, 0 ≤ k →
      sliceIndex bytes.length (p + k) = p + sliceIndex (bytes.drop p).length k := by
    intro k hk
    rw [sliceIndex, sliceIndex, if_neg (by omega), if_neg (by omega), List.length_drop]
    omega
  rw [slice, slice, hindex i hi, hindex j hj, List.drop_drop, Nat.add_sub_add_left]

theorem length_encode_le_count {buf : Bytes} {offset : Int} {n : Nat}
    (h : (readVarint buf offset).1 = n) :
    (Leb128.encode n).length ≤ (readVarint buf offset).2 := by
  have hlt := readVarintLoop_lt (l := bytesFrom buf offset) (r := 0) (s := 0) (k := 0)
    (by decide)
  have hcount := readVarint_count_pos buf offset
  simp only [readVarint] at h hcount ⊢
  generalize readVarintLoop (bytesFrom buf offset) 0 0 0 = p at h hlt hcount ⊢
  have hn : p.1.toNat = n := by
    have hval := BitVec.toInt_eq_toNat_cond p.1
    have := p.1.isLt
    split at hval <;> omega
  obtain ⟨k, hk⟩ : ∃ k, p.2 = k + 1 := ⟨p.2 - 1, by omega⟩
  rw [hk]
  apply Leb128.length_encode_le
  rw [← hn, show 128 = 2 ^ 7 from rfl, ← Nat.pow_mul]
  simpa [hk] using hlt

theorem msb_readVarintLoop {l : Bytes} {r : BitVec 32} {s k : Nat} (hr : r.msb = true) :
    (readVarintLoop l r s k).1.msb = true := by
  induction l generalizing r s k with
  | nil => exact hr
  | cons b l ih =>
    rw [readVarintLoop]
    split
    · simp [BitVec.msb_or, hr]
    · exact ih (by simp [BitVec.msb_or, hr])

theorem msb_readVarintLoop_append {l l' : Bytes} {r : BitVec 32} {s k : Nat}
    (h : (readVarintLoop l r s k).1.msb = true) :
    (readVarintLoop (l ++ l') r s k).1.msb = true := by
  induction l generalizing r s k with
  | nil => exact msb_readVarintLoop h
  | cons b l ih =>
    rw [List.cons_append]
    rw [readVarintLoop] at h ⊢
    split at h
    · rwa [if_pos ‹_›]
    · rw [if_neg ‹_›]
      exact ih h

/-- No varint read anywhere in the bytes is negative. -/
def NoNegativeVarint (bytes : Bytes) : Prop := ∀ p : Nat, 0 ≤ (readVarint bytes p).1

theorem NoNegativeVarint.drop {bytes : Bytes} (h : NoNegativeVarint bytes) (n : Nat) :
    NoNegativeVarint (bytes.drop n) := by
  intro p
  rw [← readVarint_drop, ← Int.natCast_add]
  exact h (n + p)

theorem NoNegativeVarint.of_append {front back : Bytes} (h : NoNegativeVarint (front ++ back)) :
    NoNegativeVarint front := by
  intro p
  have hp := h p
  simp only [readVarint, bytesFrom_natCast] at hp ⊢
  by_contra hneg
  have hmsb : (readVarintLoop (front.drop p) 0 0 0).1.msb = true := by
    rw [BitVec.msb_eq_toInt]
    simpa using hneg
  have hlt : p ≤ front.length := by
    by_contra hge
    rw [List.drop_eq_nil_of_le (by omega)] at hmsb
    simp [readVarintLoop] at hmsb
  rw [List.drop_append_of_le_length hlt] at hp
  have happ : (readVarintLoop (front.drop p ++ back) 0 0 0).1.msb = true :=
    msb_readVarintLoop_append hmsb
  rw [BitVec.msb_eq_toInt] at happ
  simp only [decide_eq_true_eq] at happ
  omega

end Codec
end IpfsShard
