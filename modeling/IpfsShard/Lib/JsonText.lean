import IpfsShard.Lib.JsonTree
import IpfsShard.Lib.Utf8

/-! The value of a JSON text, and of the text where some characters were cut: a cut character
puts more U+FFFD into a string than stood there. -/

namespace Json

open Utf8

/-- The code units of a character. -/
def utf16 (c : Char) : List Nat :=
  if c.toNat < 0x10000 then [c.toNat]
  else [0xD800 + (c.toNat - 0x10000) / 0x400, 0xDC00 + (c.toNat - 0x10000) % 0x400]

def units (s : Written Char) : List Nat := s.flatMap (Sum.elim (fun u => [u]) utf16)

def symbol (c : Char) : Symbol Char := if c.toNat < 0x80 then .ascii c else .other c

def treeOf (text : List Char) : Option (Tree (List Nat)) :=
  (tokens (text.map symbol)).bind fun ts => tree (ts.map (Token.map units))

def parse {ν : Type*} (toNumber : List Char → ν) (text : List Char) : Option (Value ν) :=
  (treeOf text).map (Tree.value toNumber)

variable {α ν σ τ υ : Type*}

theorem Token.map_map (f : σ → τ) (g : τ → υ) (ts : List (Token σ)) :
    (ts.map (Token.map f)).map (Token.map g) = ts.map (Token.map (g ∘ f)) := by
  rw [List.map_map]
  congr 1
  funext t
  cases t <;> rfl

theorem treeOf_expand {e : α → List Char} (he : ∀ a, e a ≠ []) {text : List Char}
    {symbols : List (Symbol α)} (h : text.map symbol = expand e symbols) :
    treeOf text =
      ((tokens symbols).bind tree).map (Tree.map (units ∘ expandWritten e)) := by
  rw [treeOf, h, tokens_expand he, Option.bind_map, Option.map_bind]
  congr 1
  funext ts
  change tree ((ts.map (Token.map (expandWritten e))).map (Token.map units)) = (tree ts).map _
  rw [Token.map_map, tree_map]

abbrev Cut := { x : Char × List Char // Block x.1 x.2 }

def Cut.char (x : Cut) : Char := x.1.1

def Cut.block (x : Cut) : List Char := x.1.2

def Cut.symbol (x : Cut) : Symbol Cut := if x.char.toNat < 0x80 then .ascii x.char else .other x

def Cut.Whole (x : Cut) : Prop := x.block = [x.char]

theorem Cut.whole_or_cut (x : Cut) : x.Whole ∨
    ∃ n, 2 ≤ n ∧ 0x80 ≤ x.char.toNat ∧ x.block = List.replicate n replacement := by
  obtain ⟨⟨c, block⟩, hblock⟩ := x
  change Block c block at hblock
  cases hblock with
  | whole => exact Or.inl rfl
  | cut n hn hlarge => exact Or.inr ⟨n, hn, hlarge, rfl⟩

theorem Cut.whole_of_small {x : Cut} (h : x.char.toNat < 0x80) : x.Whole := by
  rcases x.whole_or_cut with hwhole | ⟨n, -, hlarge, -⟩
  · exact hwhole
  · exact absurd h (Nat.not_lt.mpr hlarge)

theorem Cut.block_ne_nil (x : Cut) : x.block ≠ [] := by
  rcases x.whole_or_cut with hwhole | ⟨n, hn, -, hblock⟩
  · rw [hwhole]
    exact List.cons_ne_nil x.char []
  · rw [hblock, Ne, List.replicate_eq_nil_iff]
    omega

theorem Cut.large_of_mem {x : Cut} (hlarge : ¬ x.char.toNat < 0x80) {c : Char}
    (hc : c ∈ x.block) : ¬ c.toNat < 0x80 := by
  rcases x.whole_or_cut with hwhole | ⟨n, -, -, hblock⟩
  · rw [hwhole] at hc
    exact List.mem_singleton.mp hc ▸ hlarge
  · rw [hblock] at hc
    rw [List.eq_of_mem_replicate hc]
    decide

theorem expand_chars (cuts : List Cut) :
    (cuts.map Cut.char).map Json.symbol = expand (fun x => [x.char]) (cuts.map Cut.symbol) := by
  induction cuts with
  | nil => rfl
  | cons x cuts ih =>
    rw [List.map_cons, List.map_cons, ih, List.map_cons, Cut.symbol, Json.symbol]
    split_ifs <;> rfl

theorem expand_blocks (cuts : List Cut) :
    (cuts.flatMap Cut.block).map Json.symbol = expand Cut.block (cuts.map Cut.symbol) := by
  induction cuts with
  | nil => rfl
  | cons x cuts ih =>
    rw [List.flatMap_cons, List.map_append, ih, List.map_cons, expand, expand, List.flatMap_cons]
    congr 1
    unfold Cut.symbol
    split_ifs with hsmall
    · rw [Cut.whole_of_small hsmall, List.map_singleton, Json.symbol, if_pos hsmall]
    · refine List.map_congr_left fun c hc => ?_
      rw [Json.symbol, if_neg (Cut.large_of_mem hsmall hc)]

def pieceUnits : Nat ⊕ Cut → List Nat := Sum.elim (fun u => [u]) fun x => utf16 x.char

def pieceUnits' : Nat ⊕ Cut → List Nat := Sum.elim (fun u => [u]) fun x => x.block.flatMap utf16

theorem units_chars (s : Written Cut) :
    (units ∘ expandWritten fun x : Cut => [x.char]) s = s.flatMap pieceUnits := by
  rw [Function.comp_apply, units, expandWritten, List.flatMap_assoc]
  congr 1
  funext x
  cases x <;> exact List.append_nil _

theorem units_blocks (s : Written Cut) :
    (units ∘ expandWritten Cut.block) s = s.flatMap pieceUnits' := by
  rw [Function.comp_apply, units, expandWritten, List.flatMap_assoc]
  congr 1
  funext x
  cases x with
  | inl u => rfl
  | inr x =>
    change (x.block.map Sum.inr).flatMap _ = x.block.flatMap utf16
    exact List.flatMap_map ..

theorem count_utf16_le (c : Char) : (utf16 c).count 0xFFFD ≤ 1 := by
  unfold utf16
  split_ifs with hsmall
  · exact List.count_le_length
  · have hlow : 0xDC00 + (c.toNat - 0x10000) % 0x400 ≠ 0xFFFD := by omega
    have hhigh : 0xD800 + (c.toNat - 0x10000) / 0x400 ≠ 0xFFFD := by
      have hvalid : c.toNat < 0xD800 ∨ 0xDFFF < c.toNat ∧ c.toNat < 0x110000 := c.valid
      omega
    rw [List.count_cons_of_ne hhigh, List.count_cons_of_ne hlow]
    exact Nat.zero_le 1

theorem piece_count (p : Nat ⊕ Cut) :
    pieceUnits p = pieceUnits' p ∧ (∀ x, p = .inr x → x.Whole) ∨
      (pieceUnits p).count 0xFFFD < (pieceUnits' p).count 0xFFFD := by
  cases p with
  | inl u => exact Or.inl ⟨rfl, nofun⟩
  | inr x =>
    change utf16 x.char = x.block.flatMap utf16 ∧ _ ∨
      (utf16 x.char).count 0xFFFD < (x.block.flatMap utf16).count 0xFFFD
    rcases x.whole_or_cut with hwhole | ⟨n, hn, -, hblock⟩
    · refine Or.inl ⟨?_, fun x' hx' => ?_⟩
      · rw [hwhole]
        exact (List.append_nil _).symm
      · cases hx'
        exact hwhole
    · right
      have hunits : (List.replicate n replacement).flatMap utf16 = List.replicate n 0xFFFD := by
        rw [List.flatMap_replicate]
        exact List.flatten_replicate_singleton
      have hle := count_utf16_le x.char
      rw [hblock, hunits, List.count_replicate_self]
      omega

theorem pieces_count (s : Written Cut) :
    s.flatMap pieceUnits = s.flatMap pieceUnits' ∧ Others Cut.Whole s ∨
      (s.flatMap pieceUnits).count 0xFFFD < (s.flatMap pieceUnits').count 0xFFFD := by
  induction s with
  | nil => exact Or.inl ⟨rfl, fun x hx => absurd hx List.not_mem_nil⟩
  | cons p s ih =>
    rw [List.flatMap_cons, List.flatMap_cons, List.count_append, List.count_append]
    rcases piece_count p with ⟨hp, hwhole⟩ | hp <;> rcases ih with ⟨hs, hothers⟩ | hs
    · refine Or.inl ⟨by rw [hp, hs], fun x hx => ?_⟩
      exact (List.mem_cons.mp hx).elim (fun heq => hwhole x heq.symm) (hothers x)
    · rw [hp]
      exact Or.inr (Nat.add_lt_add_left hs _)
    · rw [hs]
      exact Or.inr (Nat.add_lt_add_right hp _)
    · exact Or.inr (Nat.add_lt_add hp hs)

variable {toNumber : List Char → ν}

theorem whole_of_parse_eq {cuts : List Cut} {t : Tree (List Nat)}
    (ht : treeOf (cuts.map Cut.char) = some t) (hdistinct : t.Distinct)
    (h : parse toNumber (cuts.map Cut.char) = parse toNumber (cuts.flatMap Cut.block)) :
    ∀ x ∈ cuts, x.Whole := by
  have hchars := treeOf_expand (fun x : Cut => List.cons_ne_nil x.char []) (expand_chars cuts)
  have hblocks := treeOf_expand Cut.block_ne_nil (expand_blocks cuts)
  rw [parse, parse, hblocks, hchars] at h
  rw [hchars] at ht
  obtain ⟨held, hheld, rfl⟩ := Option.map_eq_some_iff.mp ht
  rw [hheld] at h
  have hvalue := Option.some.inj h
  have hcount (s : Written Cut) : (units ∘ expandWritten fun x : Cut => [x.char]) s =
      (units ∘ expandWritten Cut.block) s ∨
        ((units ∘ expandWritten fun x : Cut => [x.char]) s).count 0xFFFD <
          ((units ∘ expandWritten Cut.block) s).count 0xFFFD := by
    rw [units_chars, units_blocks]
    exact (pieces_count s).imp_left And.left
  have hall : held.All (Others Cut.Whole) := by
    refine (all_of_value_eq hcount hdistinct hvalue).imp fun s hs => ?_
    rw [units_chars, units_blocks] at hs
    refine ((pieces_count s).resolve_right fun hlt => ?_).2
    rw [hs] at hlt
    exact lt_irrefl _ hlt
  obtain ⟨ts, hts, htree⟩ := Option.bind_eq_some_iff.mp hheld
  have hothers := tokens_holds hts (tree_all htree hall)
  intro x hx
  by_cases hsmall : x.char.toNat < 0x80
  · exact Cut.whole_of_small hsmall
  · refine hothers x ?_
    have hsymbol : x.symbol = .other x := by rw [Cut.symbol, if_neg hsmall]
    exact hsymbol ▸ List.mem_map_of_mem hx

end Json
