import IpfsShard.Codec.BitswapCodec
import IpfsShard.Lib.Cursor

/-! The control skeleton of the four decoder loops: which field each of them steps over, and
which loop it runs inside. The lengths added to the offset are signed, so a length-delimited
field can be narrower than nothing; `WidthsPositive` says that the loops meet no such field. -/

namespace IpfsShard.Codec
open Loop Cursor

theorem readTag_drop (bytes : Bytes) (p : Nat) :
    readTag bytes p =
      { readTag (bytes.drop p) 0 with next := p + (readTag (bytes.drop p) 0).next } := by
  have h := readVarint_drop bytes p 0
  simp only [Int.natCast_zero, Int.add_zero] at h
  simp [readTag, h]

theorem readTag_next (bytes : Bytes) : ∃ n : Nat, 0 < n ∧ (readTag bytes 0).next = n :=
  ⟨_, readVarint_count_pos bytes 0, by simp [readTag]⟩

inductive LoopKind where
  | message
  | wantlist
  | wantEntry
  | payloadBlock

inductive Rule where
  | delimited
  | varint
  | tagOnly
  | stop

def LoopKind.rule : LoopKind → Tag → Rule
  | .message, tag => if tag.wireType = 2 then .delimited else .stop
  | .wantlist, tag =>
    if tag.wireType = 2 ∧ tag.fieldNum = 1 then .delimited
    else if tag.wireType = 0 then .varint else .tagOnly
  | .wantEntry, tag =>
    if tag.wireType = 2 then .delimited else if tag.wireType = 0 then .varint else .tagOnly
  | .payloadBlock, tag => if tag.wireType = 2 then .delimited else .tagOnly

def LoopKind.inner : LoopKind → Tag → Option LoopKind
  | .message, tag =>
    if tag.fieldNum = 1 then some .wantlist
    else if tag.fieldNum = 3 then some .payloadBlock else none
  | .wantlist, _ => some .wantEntry
  | .wantEntry, _ => none
  | .payloadBlock, _ => none

/-- The offset behind the field at `offset`; `none` where the loop stops. -/
def advance (kind : LoopKind) (bytes : Bytes) (offset : Int) : Option Int :=
  let tag := readTag bytes offset
  match kind.rule tag with
  | .delimited => some (readLenDelimited bytes tag.next).2
  | .varint => some (skipVarint bytes tag.next)
  | .tagOnly => some tag.next
  | .stop => none

def innerLoop (kind : LoopKind) (bytes : Bytes) (offset : Int) : Option (LoopKind × Bytes) :=
  let tag := readTag bytes offset
  match kind.rule tag with
  | .delimited => (kind.inner tag).map fun k => (k, (readLenDelimited bytes tag.next).1)
  | _ => none

/-- Read as a sequence of fields, and the nested fields likewise, the bytes hold no field
whose declared width (tag, length prefix and signed length) is zero or less. -/
inductive WidthsPositive : LoopKind → Bytes → Prop where
  | done (kind : LoopKind) : WidthsPositive kind []
  | stop {kind : LoopKind} {bytes : Bytes} : advance kind bytes 0 = none → WidthsPositive kind bytes
  | field {kind : LoopKind} {bytes : Bytes} {width : Nat} :
      advance kind bytes 0 = some (width : Int) → 0 < width →
      (∀ k body, innerLoop kind bytes 0 = some (k, body) → WidthsPositive k body) →
      WidthsPositive kind (bytes.drop width) → WidthsPositive kind bytes

theorem readLenDelimited_drop_snd (bytes : Bytes) (p n : Nat) :
    (readLenDelimited bytes (p + n)).2 = p + (readLenDelimited (bytes.drop p) n).2 := by
  simp only [readLenDelimited, readVarint_drop]
  omega

theorem readLenDelimited_drop_fst (bytes : Bytes) {p : Nat} (n : Nat) (hp : p ≤ bytes.length)
    (h : 0 ≤ (readLenDelimited (bytes.drop p) n).2) :
    (readLenDelimited bytes (p + n)).1 = (readLenDelimited (bytes.drop p) n).1 := by
  simp only [readLenDelimited, readVarint_drop] at h ⊢
  rw [Int.add_assoc, Int.add_assoc, Int.add_assoc, slice_drop bytes hp (by omega) (by omega),
    ← Int.add_assoc]

theorem rule_drop (kind : LoopKind) (bytes : Bytes) (p : Nat) :
    kind.rule (readTag bytes p) = kind.rule (readTag (bytes.drop p) 0) := by
  rw [readTag_drop]
  cases kind <;> rfl

theorem advance_drop (kind : LoopKind) (bytes : Bytes) (p : Nat) :
    advance kind bytes p = (advance kind (bytes.drop p) 0).map ((p : Int) + ·) := by
  obtain ⟨n, -, hn⟩ := readTag_next (bytes.drop p)
  simp only [advance, rule_drop kind bytes p]
  cases kind.rule (readTag (bytes.drop p) 0) with
  | delimited => simp [readTag_drop bytes p, hn, readLenDelimited_drop_snd]
  | varint => simp [readTag_drop bytes p, hn, skipVarint, readVarint_drop, Int.add_assoc]
  | tagOnly => simp [readTag_drop bytes p]
  | stop => rfl

theorem innerLoop_drop {kind : LoopKind} {bytes : Bytes} {p : Nat} (hp : p ≤ bytes.length)
    {width : Nat} (h : advance kind (bytes.drop p) 0 = some (width : Int)) :
    innerLoop kind bytes p = innerLoop kind (bytes.drop p) 0 := by
  obtain ⟨n, -, hn⟩ := readTag_next (bytes.drop p)
  have hinner : kind.inner (readTag bytes p) = kind.inner (readTag (bytes.drop p) 0) := by
    rw [readTag_drop]
    cases kind <;> rfl
  simp only [innerLoop, rule_drop kind bytes p, hinner]
  simp only [advance] at h
  cases hr : kind.rule (readTag (bytes.drop p) 0) with
  | delimited =>
    simp only [hr, hn, Option.some.injEq] at h
    simp only [readTag_drop bytes p, hn, readLenDelimited_drop_fst bytes n hp (by omega)]
  | varint => rfl
  | tagOnly => rfl
  | stop => rfl

def width (kind : LoopKind) (bytes : Bytes) : Option Int := advance kind bytes 0

def InnerPositive (kind : LoopKind) (bytes : Bytes) : Prop :=
  ∀ k body, innerLoop kind bytes 0 = some (k, body) → WidthsPositive k body

theorem widthsPositive_iff (kind : LoopKind) (bytes : Bytes) :
    WidthsPositive kind bytes ↔ Positive (width kind) (InnerPositive kind) bytes := by
  constructor
  · intro h
    induction h with
    | done => exact .done
    | stop hs => exact .stop hs
    | field hw hpos hinner _ _ ih => exact .item hw hpos hinner ih
  · intro h
    induction h with
    | done => exact .done kind
    | stop hs => exact .stop hs
    | item hw hpos hinner _ ih => exact .field hw hpos hinner ih

theorem advance_of_innerLoop {kind k : LoopKind} {bytes body : Bytes} {offset : Int}
    (h : innerLoop kind bytes offset = some (k, body)) : advance kind bytes offset ≠ none := by
  simp only [innerLoop] at h
  simp only [advance]
  split at h
  · simp [*]
  · cases h

theorem widthsPositive_leaf_iff {kind : LoopKind} (hleaf : ∀ tag, kind.inner tag = none)
    (bytes : Bytes) :
    WidthsPositive kind bytes ↔ Positive (width kind) (fun _ => True) bytes := by
  -- there is no loop to run inside
  have hinner : ∀ l, InnerPositive kind l := by
    intro l k body hi
    simp only [innerLoop, hleaf] at hi
    split at hi <;> cases hi
  rw [widthsPositive_iff]
  exact ⟨Positive.mono fun _ _ => trivial, Positive.mono fun l _ => hinner l⟩

variable {σ : Type} {kind : LoopKind} {bytes : Bytes} {w : While σ} {off : σ → Int} {s r : σ}

theorem follows_of_advance (hs : off s = 0) (hc : ∀ t, w.cond t = true ↔ off t < bytes.length)
    (hnext : ∀ t u, w.body t = some (.next u) → advance kind bytes (off t) = some (off u))
    (hexit : ∀ t u, w.body t = some (.exit u) → advance kind bytes (off t) = none) :
    Follows (width kind) bytes w off s where
  start := hs
  cond t _ := hc t
  next t u _ _ hb p hp := by
    have h := hnext t u hb
    rw [hp, advance_drop] at h
    obtain ⟨n, hn, hu⟩ := Option.map_eq_some_iff.mp h
    exact ⟨n, hn, hu.symm⟩
  exit t u _ _ hb p hp := by
    have h := hexit t u hb
    rw [hp, advance_drop, Option.map_eq_none_iff] at h
    exact h

theorem innerPositive_of_visits (hw : Follows (width kind) bytes w off s)
    (h : WidthsPositive kind bytes) {t : σ} (hv : w.Visits s t) (hlt : off t < bytes.length)
    {k : LoopKind} {body : Bytes} (hi : innerLoop kind bytes (off t) = some (k, body)) :
    WidthsPositive k body := by
  obtain ⟨p, hp, hpos⟩ := hw.visits ((widthsPositive_iff ..).mp h) hv
  have hle : p ≤ bytes.length := by omega
  rw [hp] at hi
  have hne := advance_of_innerLoop hi
  rw [advance_drop, ne_eq, Option.map_eq_none_iff] at hne
  obtain ⟨n, hn⟩ := Option.ne_none_iff_exists'.mp hne
  obtain ⟨hinner, m, rfl, -⟩ := hpos.step (by simp; omega) hn
  rw [innerLoop_drop hle hn] at hi
  exact hinner k body hi

theorem widthsPositive_of_run (hw : Follows (width kind) bytes w off s) {n : Nat}
    (hrun : w.run n s = some r) (hadv : w.Advances off s)
    (hinner : ∀ t, w.Visits s t → w.cond t = true → w.body t ≠ none →
      ∀ k body, innerLoop kind bytes (off t) = some (k, body) → WidthsPositive k body) :
    WidthsPositive kind bytes := by
  rw [widthsPositive_iff]
  refine hw.positive hrun hadv ?_
  intro t hv hc hb p n hp hn k body hi
  have hlt := (hw.cond t hv).mp hc
  rw [← innerLoop_drop (by omega) hn, ← hp] at hi
  exact hinner t hv hc hb k body hi

end IpfsShard.Codec
