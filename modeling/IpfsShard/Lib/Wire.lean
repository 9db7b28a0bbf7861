import IpfsShard.Lib.Leb128

/-! Fields of the protobuf wire format: a tag with the field number and the wire type, and
behind it a varint, a length and as many bytes, or a fixed number of bytes. A `RawField` is
any such field; a `Field` is one that a writer of the two kinds in use writes. -/

namespace Wire

open Leb128

universe u v w x

inductive WireType where
  | varint
  | fixed64
  | lenDelimited
  | fixed32
  deriving DecidableEq

def WireType.code : WireType → Nat
  | varint => 0
  | fixed64 => 1
  | lenDelimited => 2
  | fixed32 => 5

inductive Payload where
  | varint (value : Numeral)
  | fixed64 (bytes : List UInt8) (length_eq : bytes.length = 8)
  | lenDelimited (length : Numeral) (bytes : List UInt8) (length_eq : length.value = bytes.length)
      (length_lt : bytes.length < 2 ^ 31)
  | fixed32 (bytes : List UInt8) (length_eq : bytes.length = 4)

namespace Payload

def wireType : Payload → WireType
  | varint _ => .varint
  | fixed64 .. => .fixed64
  | lenDelimited .. => .lenDelimited
  | fixed32 .. => .fixed32

def encode : Payload → List UInt8
  | varint value => value.bytes
  | fixed64 bytes _ => bytes
  | lenDelimited length bytes _ _ => length.bytes ++ bytes
  | fixed32 bytes _ => bytes

def body : Payload → List UInt8
  | lenDelimited _ bytes _ _ => bytes
  | _ => []

def numerals : Payload → List Numeral
  | varint value => [value]
  | lenDelimited length _ _ _ => [length]
  | fixed64 .. | fixed32 .. => []

end Payload

structure RawField where
  num : Nat
  tag : Numeral
  payload : Payload
  num_lt : num < 2 ^ 29
  tag_eq : tag.value = num * 8 + payload.wireType.code

namespace RawField

def wireType (f : RawField) : WireType := f.payload.wireType

def body (f : RawField) : List UInt8 := f.payload.body

def encode (f : RawField) : List UInt8 := f.tag.bytes ++ f.payload.encode

def NumeralsWithin (k : Nat) (f : RawField) : Prop :=
  ∀ n ∈ f.tag :: f.payload.numerals, n.bytes.length ≤ k

def ofPayload (num : Nat) (payload : Payload) (h : num < 2 ^ 29) : RawField where
  num := num
  tag := .ofNat (num * 8 + payload.wireType.code)
  payload := payload
  num_lt := h
  tag_eq := Numeral.value_ofNat _

def ofVarint (num : BitVec 29) (value : Nat) : RawField :=
  .ofPayload num.toNat (.varint (.ofNat value)) num.isLt

def ofBytes (num : BitVec 29) (bytes : List UInt8) (h : bytes.length < 2 ^ 31) : RawField :=
  .ofPayload num.toNat (.lenDelimited (.ofNat bytes.length) bytes (Numeral.value_ofNat _) h)
    num.isLt

theorem exists_varint {f : RawField} (h : f.wireType = .varint) :
    ∃ value, f.payload = .varint value := by
  rw [wireType] at h
  cases hp : f.payload with
  | varint value => exact ⟨value, rfl⟩
  | _ => simp [hp, Payload.wireType] at h

theorem exists_lenDelimited {f : RawField} (h : f.wireType = .lenDelimited) :
    ∃ length heq hlt, f.payload = .lenDelimited length f.body heq hlt := by
  rw [wireType] at h
  rw [body]
  cases hp : f.payload with
  | lenDelimited length bytes heq hlt => exact ⟨length, heq, hlt, rfl⟩
  | _ => simp [hp, Payload.wireType] at h

def bytesOf (k : Nat) (f : RawField) : Option (List UInt8) :=
  if f.num = k ∧ f.wireType = .lenDelimited then some f.body else none

def varintOf (k : Nat) (f : RawField) : Option Numeral :=
  match f.payload with
  | .varint value => if f.num = k then some value else none
  | _ => none

theorem length_encode_pos (f : RawField) : 0 < f.encode.length := by
  have htag := f.tag.isNumeral.length_pos
  rw [encode, List.length_append]
  exact Nat.add_pos_left htag _

end RawField

def encodeRaw (fields : List RawField) : List UInt8 := fields.flatMap RawField.encode

theorem length_le_encodeRaw (fields : List RawField) :
    fields.length ≤ (encodeRaw fields).length := by
  induction fields with
  | nil => exact Nat.le_refl 0
  | cons f fields ih =>
    have hf := f.length_encode_pos
    rw [encodeRaw, List.flatMap_cons, List.length_append, List.length_cons, Nat.add_comm]
    exact Nat.add_le_add hf ih

theorem length_body_le {fields : List RawField} {f : RawField} (h : f ∈ fields) :
    f.body.length ≤ (encodeRaw fields).length := by
  have hfield : f.body.length ≤ f.encode.length := by
    unfold RawField.encode RawField.body
    cases f.payload with
    | lenDelimited length bytes =>
      simp only [Payload.body, Payload.encode, List.length_append]
      omega
    | varint => exact Nat.zero_le _
    | fixed64 => exact Nat.zero_le _
    | fixed32 => exact Nat.zero_le _
  have hsub := List.sublist_flatten_of_mem (List.mem_map_of_mem (f := RawField.encode) h)
  rw [← List.flatMap_def] at hsub
  exact Nat.le_trans hfield hsub.length_le

theorem foldl_last {σ : Type u} {β : Type v} {γ : Type w} {δ : Type x} (get : σ → δ)
    (value : β → Option γ) (g : γ → δ) (update : σ → β → σ)
    (h : ∀ s b, get (update s b) = ((value b).map g).getD (get s)) (l : List β) (s : σ) :
    get (l.foldl update s) = ((l.filterMap value).getLast?.map g).getD (get s) := by
  induction l generalizing s with
  | nil => rfl
  | cons b l ih =>
    rw [List.foldl_cons, ih, h]
    cases hb : value b with
    | none => rw [List.filterMap_cons_none hb, Option.map_none, Option.getD_none]
    | some c =>
      rw [List.filterMap_cons_some hb, List.getLast?_cons]
      cases (l.filterMap value).getLast? <;> rfl

inductive Field where
  | varint (num value : Nat)
  | lenDelimited (num : Nat) (bytes : List UInt8)

namespace Field

def num : Field → Nat
  | varint num _ => num
  | lenDelimited num _ => num

def wireType : Field → Nat
  | varint .. => 0
  | lenDelimited .. => 2

def tag (f : Field) : Nat := f.num * 8 + f.wireType

def payload : Field → List UInt8
  | varint _ value => Leb128.encode value
  | lenDelimited _ bytes => Leb128.encode bytes.length ++ bytes

def encode (f : Field) : List UInt8 := Leb128.encode f.tag ++ f.payload

def size : Field → Nat
  | varint _ value => value
  | lenDelimited _ bytes => bytes.length

def Below (bound : Nat) (f : Field) : Prop := f.tag < bound ∧ f.size < bound

def raw (f : Field) (h : f.Below (2 ^ 31)) : RawField :=
  match f, h with
  | varint num value, h => .ofPayload num (.varint (.ofNat value)) (by
      have htag := h.1
      simp only [tag, Field.num, wireType] at htag
      omega)
  | lenDelimited num bytes, h =>
    .ofPayload num (.lenDelimited (.ofNat bytes.length) bytes (Numeral.value_ofNat _) h.2) (by
      have htag := h.1
      simp only [tag, Field.num, wireType] at htag
      omega)

theorem encode_raw (f : Field) (h : f.Below (2 ^ 31)) : (f.raw h).encode = f.encode := by
  cases f with
  | varint => rfl
  | lenDelimited => rfl

theorem length_encode_pos (f : Field) : 0 < f.encode.length := by
  have := Leb128.length_encode_pos f.tag
  rw [encode, List.length_append]
  omega

end Field

def encode (fields : List Field) : List UInt8 := fields.flatMap Field.encode

@[simp] theorem encode_nil : encode [] = [] := rfl

@[simp] theorem encode_cons (f : Field) (fields : List Field) :
    encode (f :: fields) = f.encode ++ encode fields := rfl

theorem encode_map {α : Type u} (field : α → Field) (l : List α) :
    encode (l.map field) = l.flatMap fun a => (field a).encode := List.flatMap_map ..

end Wire
