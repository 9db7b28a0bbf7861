import Mathlib.Algebra.Ring.Nat
import Mathlib.Tactic.Common

/-! Unsigned LEB128 numerals: base 128, lowest digit first, the high bit set on every
byte but the last. -/

namespace Leb128

def encode (n : Nat) : List UInt8 :=
  if n < 128 then [UInt8.ofNat n] else UInt8.ofNat (n % 128 + 128) :: encode (n / 128)
termination_by n
decreasing_by omega

def value : List UInt8 → Nat
  | [] => 0
  | b :: rest => b.toNat % 128 + 128 * value rest

/-- The high bit is set on every byte but the last. A numeral may be longer than need be. -/
inductive IsNumeral : List UInt8 → Prop where
  | last {b : UInt8} : b.toNat < 128 → IsNumeral [b]
  | next {b : UInt8} {rest : List UInt8} : 128 ≤ b.toNat → IsNumeral rest → IsNumeral (b :: rest)

structure Numeral where
  bytes : List UInt8
  isNumeral : IsNumeral bytes

def Numeral.value (n : Numeral) : Nat := Leb128.value n.bytes

theorem encode_of_lt {n : Nat} (h : n < 128) : encode n = [UInt8.ofNat n] := by
  rw [encode, if_pos h]

theorem encode_of_ge {n : Nat} (h : 128 ≤ n) :
    encode n = UInt8.ofNat (n % 128 + 128) :: encode (n / 128) := by
  rw [encode, if_neg (by omega)]

theorem encode_ne_nil (n : Nat) : encode n ≠ [] := by
  rw [encode]
  split <;> simp

theorem length_encode_pos (n : Nat) : 0 < (encode n).length :=
  List.length_pos_iff.mpr (encode_ne_nil n)

theorem isNumeral_encode (n : Nat) : IsNumeral (encode n) := by
  induction n using Nat.strongRecOn with
  | ind n ih =>
    by_cases hn : n < 128
    · rw [encode_of_lt hn]
      exact .last (by rw [UInt8.toNat_ofNat']; omega)
    · rw [encode_of_ge (by omega)]
      exact .next (by rw [UInt8.toNat_ofNat']; omega) (ih (n / 128) (by omega))

theorem value_encode (n : Nat) : value (encode n) = n := by
  induction n using Nat.strongRecOn with
  | ind n ih =>
    by_cases hn : n < 128
    · rw [encode_of_lt hn, value, value, UInt8.toNat_ofNat']
      omega
    · rw [encode_of_ge (by omega), value, ih (n / 128) (by omega), UInt8.toNat_ofNat']
      omega

def Numeral.ofNat (n : Nat) : Numeral := ⟨encode n, isNumeral_encode n⟩

@[simp] theorem Numeral.value_ofNat (n : Nat) : (ofNat n).value = n := value_encode n

theorem IsNumeral.length_pos {l : List UInt8} (h : IsNumeral l) : 0 < l.length := by
  cases h with
  | last => exact Nat.zero_lt_one
  | next => exact Nat.succ_pos _

theorem length_encode_le {n k : Nat} (h : n < 128 ^ (k + 1)) : (encode n).length ≤ k + 1 := by
  induction k generalizing n with
  | zero => simp [encode_of_lt (show n < 128 by simpa using h)]
  | succ k ih =>
    by_cases hn : n < 128
    · simp [encode_of_lt hn]
    · rw [encode_of_ge (by omega), List.length_cons]
      have hdiv : n / 128 < 128 ^ (k + 1) :=
        Nat.div_lt_of_lt_mul (by rw [Nat.mul_comm, ← Nat.pow_succ]; exact h)
      exact Nat.succ_le_succ (ih hdiv)

theorem continues_of_prefix {n : Nat} {front back : List UInt8} (hback : back ≠ [])
    (h : encode n = front ++ back) : ∀ b ∈ front, 128 ≤ b.toNat := by
  induction front generalizing n with
  | nil => simp
  | cons a front ih =>
    by_cases hn : n < 128
    · rw [encode_of_lt hn] at h
      simp [hback] at h
    · rw [encode_of_ge (by omega), List.cons_append, List.cons.injEq] at h
      intro b hb
      rcases List.mem_cons.mp hb with rfl | hb
      · rw [← h.1, UInt8.toNat_ofNat']
        omega
      · exact ih h.2 b hb

theorem drop_encode {n j : Nat} (h : j < (encode n).length) :
    (encode n).drop j = encode (n / 128 ^ j) := by
  induction j generalizing n with
  | zero => simp
  | succ j ih =>
    by_cases hn : n < 128
    · simp [encode_of_lt hn] at h
    · rw [encode_of_ge (by omega)] at h ⊢
      rw [List.drop_succ_cons, ih (by simpa using h), Nat.div_div_eq_div_mul, Nat.pow_succ']

end Leb128
