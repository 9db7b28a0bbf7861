import IpfsShard.Lib.JsonText
import Mathlib.Data.List.TakeWhile

/-! The text of a JSON tree as `JSON.stringify` writes it, without whitespace: every tree is read
back from its text. -/

namespace Json

variable {α σ ν : Type*}

def hexChar (d : Nat) : Char := Char.ofNat (if d < 10 then 0x30 + d else 0x57 + d)

def hexText (u : Nat) : List Char :=
  [hexChar (u / 0x1000), hexChar (u / 0x100 % 0x10), hexChar (u / 0x10 % 0x10), hexChar (u % 0x10)]

def shortEscape (u : Nat) : Option Char :=
  if u = 0x22 then some '"'
  else if u = 0x5C then some '\\'
  else if u = 0x08 then some 'b'
  else if u = 0x0C then some 'f'
  else if u = 0x0A then some 'n'
  else if u = 0x0D then some 'r'
  else if u = 0x09 then some 't'
  else none

def isSurrogate (u : Nat) : Bool := 0xD800 ≤ u && u ≤ 0xDFFF

/-- A unit on its own: a control character or a lone surrogate is written with its digits. -/
def quoteUnit (u : Nat) : List Char :=
  match shortEscape u with
  | some c => ['\\', c]
  | none => if u < 0x20 || isSurrogate u then '\\' :: 'u' :: hexText u else [Char.ofNat u]

def isPair (u v : Nat) : Bool := 0xD800 ≤ u && u < 0xDC00 && 0xDC00 ≤ v && v < 0xE000

def pairChar (u v : Nat) : Char := Char.ofNat (0x10000 + (u - 0xD800) * 0x400 + (v - 0xDC00))

def quoteUnits : List Nat → List Char
  | [] => []
  | [u] => quoteUnit u
  | u :: v :: us =>
    if isPair u v then pairChar u v :: quoteUnits us else quoteUnit u ++ quoteUnits (v :: us)

def quote (us : List Nat) : List Char := '"' :: quoteUnits us ++ ['"']

def Scalar.text : Scalar → List Char
  | .null => ['n', 'u', 'l', 'l']
  | .bool true => ['t', 'r', 'u', 'e']
  | .bool false => ['f', 'a', 'l', 's', 'e']
  | .number digits => digits

def separated (sep : α) : List (List α) → List α
  | [] => []
  | [part] => part
  | part :: next :: parts => part ++ sep :: separated sep (next :: parts)

mutual

def Tree.text : Tree (List Nat) → List Char
  | .scalar x => x.text
  | .string us => quote us
  | .array items => '[' :: separated ',' (texts items) ++ [']']
  | .object members => '\x7b' :: separated ',' (memberTexts members) ++ ['\x7d']

def texts : List (Tree (List Nat)) → List (List Char)
  | [] => []
  | t :: items => t.text :: texts items

def memberTexts : List (List Nat × Tree (List Nat)) → List (List Char)
  | [] => []
  | (name, t) :: members => (quote name ++ ':' :: t.text) :: memberTexts members

end

mutual

def Tree.tokens : Tree σ → List (Token σ)
  | .scalar x => [.scalar x]
  | .string s => [.string s]
  | .array items => .leftBracket :: separated .comma (itemTokens items) ++ [.rightBracket]
  | .object members => .leftBrace :: separated .comma (memberTokens members) ++ [.rightBrace]

def itemTokens : List (Tree σ) → List (List (Token σ))
  | [] => []
  | t :: items => t.tokens :: itemTokens items

def memberTokens : List (σ × Tree σ) → List (List (Token σ))
  | [] => []
  | (name, t) :: members => (.string name :: .colon :: t.tokens) :: memberTokens members

end

/-- What can be written: numbers as JSON has them, and strings of 16-bit units. -/
def Units (us : List Nat) : Prop := ∀ u ∈ us, u < 0x10000

def Scalar.Valid : Scalar → Prop
  | .number digits => isNumber digits = true
  | .null | .bool _ => True

inductive Tree.Valid : Tree (List Nat) → Prop where
  | scalar {x : Scalar} : x.Valid → Valid (.scalar x)
  | string {us : List Nat} : Units us → Valid (.string us)
  | array {items : List (Tree (List Nat))} : (∀ t ∈ items, Valid t) → Valid (.array items)
  | object {members : List (List Nat × Tree (List Nat))} : (∀ m ∈ members, Units m.1) →
      (∀ m ∈ members, Valid m.2) → Valid (.object members)

variable {stack : List (Frame σ)} {ts : List (Token σ)}

theorem exists_first (t : Tree σ) :
    ∃ tok rest, t.tokens = tok :: rest ∧ ∀ stack, close stack tok = none := by
  have hnone : ∀ {tok : Token σ}, tok ≠ .rightBracket → tok ≠ .rightBrace →
      ∀ stack, close stack tok = none := by
    intro tok hbracket hbrace stack
    unfold close
    split <;> first | rfl | contradiction
  cases t with
  | scalar x => exact ⟨_, _, rfl, hnone (by simp) (by simp)⟩
  | string s => exact ⟨_, _, rfl, hnone (by simp) (by simp)⟩
  | array items => exact ⟨_, _, rfl, hnone (by simp) (by simp)⟩
  | object members => exact ⟨_, _, rfl, hnone (by simp) (by simp)⟩

theorem treeFrom_cons (expect : Expect) (tok : Token σ) :
    treeFrom (.within expect stack) (tok :: ts) =
      (step (.within expect stack) tok).bind fun p => treeFrom p ts := by rw [treeFrom]

theorem treeFrom_first (t : Tree σ) : treeFrom (.within .first stack) (t.tokens ++ ts) =
    treeFrom (.within .value stack) (t.tokens ++ ts) := by
  obtain ⟨tok, rest, htokens, hclose⟩ := exists_first t
  rw [htokens, List.cons_append, treeFrom_cons, treeFrom_cons]
  simp only [step, hclose, Option.or_none]

def ReadBack (t : Tree σ) : Prop := ∀ (stack : List (Frame σ)) (ts : List (Token σ)),
  treeFrom (.within .value stack) (t.tokens ++ ts) = (complete t stack).bind fun p => treeFrom p ts

theorem treeFrom_items {items : List (Tree σ)} (h : ∀ t ∈ items, ReadBack t) (hne : items ≠ [])
    (done : List (Tree σ)) :
    treeFrom (.within .value (.array done :: stack))
        (separated .comma (itemTokens items) ++ .rightBracket :: ts) =
      (complete (.array (done ++ items)) stack).bind fun p => treeFrom p ts := by
  induction items generalizing done with
  | nil => exact absurd rfl hne
  | cons t items ih =>
    obtain ⟨ht, hitems⟩ := List.forall_mem_cons.mp h
    cases items with
    | nil =>
      rw [itemTokens, itemTokens, separated, ht]
      simp only [complete, Option.bind_some, treeFrom_cons, step, comma, close, Option.none_or]
    | cons t' items =>
      have hrest := ih hitems (List.cons_ne_nil t' items) (done ++ [t])
      rw [itemTokens] at hrest
      rw [itemTokens, itemTokens, separated, List.append_assoc, ht]
      simp only [complete, Option.bind_some, List.cons_append, treeFrom_cons, step, comma,
        Option.some_or]
      rw [hrest, List.append_assoc]
      rfl

theorem treeFrom_members {members : List (σ × Tree σ)} (h : ∀ m ∈ members, ReadBack m.2)
    (hne : members ≠ []) (done : List (σ × Tree σ)) :
    treeFrom (.within .name (.object done :: stack))
        (separated .comma (memberTokens members) ++ .rightBrace :: ts) =
      (complete (.object (done ++ members)) stack).bind fun p => treeFrom p ts := by
  induction members generalizing done with
  | nil => exact absurd rfl hne
  | cons m members ih =>
    obtain ⟨key, t⟩ := m
    obtain ⟨ht, hmembers⟩ := List.forall_mem_cons.mp h
    cases members with
    | nil =>
      rw [memberTokens, memberTokens, separated]
      simp only [List.cons_append, treeFrom_cons, step, name, Option.bind_some, colon]
      rw [ht]
      simp only [complete, Option.bind_some, treeFrom_cons, step, comma, close, Option.none_or]
    | cons m' members =>
      have hrest := ih hmembers (List.cons_ne_nil m' members) (done ++ [(key, t)])
      rw [memberTokens] at hrest
      rw [memberTokens, memberTokens, separated]
      simp only [List.cons_append, List.append_assoc, treeFrom_cons, step, name, Option.bind_some,
        colon]
      rw [ht]
      simp only [complete, Option.bind_some, treeFrom_cons, step, comma, Option.some_or]
      rw [hrest, List.append_assoc]
      rfl

theorem treeFrom_firstName {members : List (σ × Tree σ)} (hne : members ≠ [])
    (done : List (σ × Tree σ)) :
    treeFrom (.within .firstName (.object done :: stack))
        (separated .comma (memberTokens members) ++ ts) =
      treeFrom (.within .name (.object done :: stack))
        (separated .comma (memberTokens members) ++ ts) := by
  obtain ⟨⟨key, t⟩, members, rfl⟩ := List.exists_cons_of_ne_nil hne
  rw [memberTokens]
  cases memberTokens members <;>
    simp only [separated, List.cons_append, treeFrom_cons, step, name, Option.some_or]

theorem readBack (t : Tree σ) : ReadBack t := by
  induction t using Tree.induct with
  | scalar x =>
    intro stack ts
    rw [Tree.tokens, List.singleton_append, treeFrom_cons]
    rfl
  | string s =>
    intro stack ts
    rw [Tree.tokens, List.singleton_append, treeFrom_cons]
    rfl
  | array items ih =>
    intro stack ts
    rw [Tree.tokens, List.append_assoc, List.cons_append, treeFrom_cons]
    simp only [step, first, Option.bind_some]
    cases items with
    | nil =>
      rw [itemTokens, separated, List.nil_append, List.singleton_append, treeFrom_cons]
      simp only [step, first, close, Option.none_or]
    | cons t items =>
      have hitems := @treeFrom_items _ stack ts _ ih (List.cons_ne_nil t items) []
      rw [List.nil_append] at hitems
      rw [List.singleton_append, ← hitems, itemTokens]
      cases itemTokens items with
      | nil => exact treeFrom_first t
      | cons part parts =>
        rw [separated, List.append_assoc]
        exact treeFrom_first t
  | object members ih =>
    intro stack ts
    rw [Tree.tokens, List.append_assoc, List.cons_append, treeFrom_cons]
    simp only [step, first, Option.bind_some]
    cases members with
    | nil =>
      rw [memberTokens, separated, List.nil_append, List.singleton_append, treeFrom_cons]
      simp only [step, name, close, Option.none_or]
    | cons m members =>
      have hmembers := @treeFrom_members _ stack ts _ ih (List.cons_ne_nil m members) []
      rw [List.nil_append] at hmembers
      rw [List.singleton_append, ← hmembers]
      exact treeFrom_firstName (List.cons_ne_nil m members) []

theorem tree_tokens (t : Tree σ) : tree t.tokens = some t := by
  have h := readBack t [] []
  rw [List.append_nil] at h
  exact h

def Scans (w rest : List Char) : Prop := ∃ front, w = front ++ rest ∧ ∀ c ∈ front, isWordChar c = true

variable {w w' w'' : List Char}

theorem Scans.refl (w : List Char) : Scans w w := ⟨[], rfl, List.forall_mem_nil _⟩

theorem Scans.trans (h : Scans w w') (h' : Scans w' w'') : Scans w w'' := by
  obtain ⟨front, rfl, hfront⟩ := h
  obtain ⟨front', rfl, hfront'⟩ := h'
  exact ⟨front ++ front', (List.append_assoc ..).symm, List.forall_mem_append.mpr ⟨hfront, hfront'⟩⟩

theorem Scans.cons {c : Char} (hc : isWordChar c = true) (h : Scans w w') : Scans (c :: w) w' := by
  obtain ⟨front, rfl, hfront⟩ := h
  exact ⟨c :: front, rfl, List.forall_mem_cons.mpr ⟨hc, hfront⟩⟩

theorem isWordChar_of_isDigit {c : Char} (h : c.isDigit = true) : isWordChar c = true := by
  simp [isWordChar, Char.isAlphanum, h]

theorem scans_digits (h : digits w = some w') : Scans w w' := by
  cases w with
  | nil => cases h
  | cons c w =>
    simp only [digits] at h
    split_ifs at h with hc
    cases h
    refine Scans.cons (isWordChar_of_isDigit hc) ⟨w.takeWhile Char.isDigit, ?_, fun d hd => ?_⟩
    · exact List.takeWhile_append_dropWhile.symm
    · exact isWordChar_of_isDigit (List.mem_takeWhile_imp hd)

theorem scans_natural (h : natural w = some w') : Scans w w' := by
  unfold natural at h
  split at h
  · cases h
    exact .cons rfl (.refl _)
  · exact scans_digits h

theorem scans_integer (h : integer w = some w') : Scans w w' := by
  unfold integer at h
  split at h
  · exact .cons rfl (scans_natural h)
  · exact scans_natural h

theorem scans_fraction (h : fraction w = some w') : Scans w w' := by
  unfold fraction at h
  split at h
  · exact .cons rfl (scans_digits h)
  · cases h
    exact .refl _

theorem scans_unsigned (w : List Char) : Scans w (unsigned w) := by
  unfold unsigned
  split
  · exact .cons rfl (.refl _)
  · exact .cons rfl (.refl _)
  · exact .refl _

theorem scans_exponent (h : exponent w = some w') : Scans w w' := by
  unfold exponent at h
  split at h
  · exact .cons rfl ((scans_unsigned _).trans (scans_digits h))
  · exact .cons rfl ((scans_unsigned _).trans (scans_digits h))
  · cases h
    exact .refl _

theorem isWordChar_of_isNumber (h : isNumber w = true) : ∀ c ∈ w, isWordChar c = true := by
  obtain ⟨behind, hinteger, h⟩ := Option.bind_eq_some_iff.mp (of_decide_eq_true h)
  obtain ⟨behind', hfraction, hexponent⟩ := Option.bind_eq_some_iff.mp h
  obtain ⟨front, rfl, hfront⟩ :=
    ((scans_integer hinteger).trans (scans_fraction hfraction)).trans (scans_exponent hexponent)
  rwa [List.append_nil]

theorem scalar_number (h : isNumber w = true) : scalar w = some (.number w) := by
  unfold scalar
  split_ifs with htrue hfalse hnull
  · rw [htrue] at h
    exact absurd h (by decide)
  · rw [hfalse] at h
    exact absurd h (by decide)
  · rw [hnull] at h
    exact absurd h (by decide)
  · rfl

def lex (text : List (Symbol Char)) : Option (List (Token (List Nat))) :=
  (tokens text).map (List.map (Token.map units))

def Stops (rest : List (Symbol Char)) : Prop :=
  rest = [] ∨ ∃ c rest', rest = .ascii c :: rest' ∧ isWordChar c = false

def LexesAs (text : List Char) (ts : List (Token (List Nat))) : Prop :=
  ∀ rest, Stops rest → lex (text.map symbol ++ rest) = (lex rest).map (ts ++ ·)

variable {rest : List (Symbol Char)}

theorem lex_between {c : Char} {tok : Token (Written Char)}
    (h : between c = some ([tok], .between)) (rest : List (Symbol Char)) :
    lex (.ascii c :: rest) = (lex rest).map (tok.map units :: ·) := by
  unfold lex tokens
  rw [tokensFrom_ascii, read, h, Option.bind_some, Option.map_map, Option.map_map]
  rfl

theorem stops_cons {c : Char} (h : isWordChar c = false) (rest : List (Symbol Char)) :
    Stops (.ascii c :: rest) := Or.inr ⟨c, rest, rfl, h⟩

theorem tokensFrom_stops (h : Stops rest) (w : List Char) :
    tokensFrom (.word w) rest =
      (scalar w).bind fun x => (tokensFrom .between rest).map (.scalar x :: ·) := by
  rcases h with rfl | ⟨c, rest', rfl, hc⟩
  · change (scalar w).map _ = _
    cases scalar w <;> rfl
  · rw [tokensFrom_ascii, tokensFrom_ascii, read, read, word, if_neg (by rw [hc]; exact nofun),
      Option.bind_assoc]
    congr 1
    funext x
    rw [Option.bind_map, Option.map_bind]
    congr 1
    funext r
    rw [Function.comp_apply, Function.comp_apply, Option.map_map]
    rfl

theorem tokensFrom_word (hw' : ∀ c ∈ w', isWordChar c = true) (w : List Char) :
    tokensFrom (.word w) (w'.map Symbol.ascii ++ rest) = tokensFrom (.word (w ++ w')) rest := by
  induction w' generalizing w with
  | nil => rw [List.map_nil, List.nil_append, List.append_nil]
  | cons c w' ih =>
    obtain ⟨hc, hw'⟩ := List.forall_mem_cons.mp hw'
    have happend : w ++ c :: w' = w ++ [c] ++ w' := by rw [List.append_assoc, List.singleton_append]
    rw [List.map_cons, List.cons_append, tokensFrom_ascii, read, word, if_pos hc, Option.bind_some,
      ih hw', happend]
    exact Option.map_id' ..

theorem between_word {c : Char} (h : isWordChar c = true) :
    (between c : Option (Read Char)) = some ([], .word [c]) := by
  unfold between
  split_ifs with hspace hquote
  · simp only [isWhitespace, Bool.or_eq_true, decide_eq_true_eq] at hspace
    rcases hspace with ((rfl | rfl) | rfl) | rfl <;> exact absurd h (by decide)
  · rw [hquote] at h
    exact absurd h (by decide)
  · rfl

theorem toNat_of_isWordChar {c : Char} (h : isWordChar c = true) : c.toNat < 0x80 := by
  delta isWordChar Char.isAlphanum Char.isAlpha Char.isUpper Char.isLower Char.isDigit at h
  simp only [Bool.or_eq_true, Bool.and_eq_true, decide_eq_true_eq] at h
  rcases h with (((h | h) | rfl) | rfl) | rfl
  · rcases h with (h | h)
    · have := UInt32.le_iff_toNat_le.mp h.2
      exact Nat.lt_of_le_of_lt this (by decide)
    · have := UInt32.le_iff_toNat_le.mp h.2
      exact Nat.lt_of_le_of_lt this (by decide)
  · have := UInt32.le_iff_toNat_le.mp h.2
    exact Nat.lt_of_le_of_lt this (by decide)
  all_goals decide

theorem map_symbol_word (h : ∀ c ∈ w, isWordChar c = true) :
    w.map symbol = w.map Symbol.ascii :=
  List.map_congr_left fun c hc => if_pos (toNat_of_isWordChar (h c hc))

theorem lexesAs_word {x : Scalar} (hw : ∀ c ∈ w, isWordChar c = true) (hx : scalar w = some x) :
    LexesAs w [.scalar x] := by
  intro rest hrest
  cases w with
  | nil => cases hx
  | cons c w =>
    obtain ⟨hc, hw'⟩ := List.forall_mem_cons.mp hw
    unfold lex tokens
    rw [map_symbol_word hw, List.map_cons, List.cons_append, tokensFrom_ascii, read, between_word hc,
      Option.bind_some, tokensFrom_word hw', List.singleton_append, tokensFrom_stops hrest, hx,
      Option.bind_some, Option.map_map, Option.map_map, Option.map_map]
    rfl

theorem lexesAs_scalar {x : Scalar} (h : x.Valid) : LexesAs x.text [.scalar x] := by
  cases x with
  | null => exact lexesAs_word (List.all_eq_true.mp rfl) rfl
  | bool b => cases b <;> exact lexesAs_word (List.all_eq_true.mp rfl) rfl
  | number digits => exact lexesAs_word (isWordChar_of_isNumber h) (scalar_number h)

def writtenUnit (u : Nat) : Nat ⊕ Char :=
  if u < 0x80 || isSurrogate u then .inl u else .inr (Char.ofNat u)

theorem toNat_ofNat {n : Nat} (h : n < 0xD800 ∨ 0xDFFF < n ∧ n < 0x110000) :
    (Char.ofNat n).toNat = n := by
  have hvalid : n.isValidChar := h
  have hchar : Char.ofNat n = Char.ofNatAux n hvalid := dif_pos hvalid
  rw [hchar]
  rfl

theorem symbol_of_lt {c : Char} (h : c.toNat < 0x80) : symbol c = .ascii c := if_pos h

theorem symbol_of_ge {c : Char} (h : ¬ c.toNat < 0x80) : symbol c = .other c := if_neg h

theorem hexDigit_hexChar : ∀ d < 16, hexDigit (hexChar d) = some d ∧ (hexChar d).toNat < 0x80 := by
  decide

theorem tokensFrom_quoted {c : Char} {q q' : Quoted} {s s' : Written Char}
    (hc : c.toNat < 0x80) (h : quoted s c q = some ([], .string q' s')) :
    tokensFrom (.string q s) (symbol c :: rest) = tokensFrom (.string q' s') rest := by
  rw [symbol_of_lt hc, tokensFrom_ascii, read, h, Option.bind_some]
  exact Option.map_id' ..

theorem tokensFrom_digit {d : Nat} (hd : d < 16) {digits : List Nat} (hlength : digits.length < 3)
    (s : Written Char) :
    tokensFrom (.string (.hex digits) s) (symbol (hexChar d) :: rest) =
      tokensFrom (.string (.hex (digits ++ [d])) s) rest := by
  obtain ⟨hdigit, hsmall⟩ := hexDigit_hexChar d hd
  refine tokensFrom_quoted hsmall ?_
  simp only [quoted, hdigit, Option.map_some, if_neg (Nat.ne_of_lt hlength)]

theorem tokensFrom_hexText {u : Nat} (hu : u < 0x10000) (s : Written Char) :
    tokensFrom (.string (.hex []) s) ((hexText u).map symbol ++ rest) =
      tokensFrom (.string .plain (s ++ [.inl u])) rest := by
  have hlast := hexDigit_hexChar (u % 0x10) (Nat.mod_lt u (by decide))
  have hunit : unit [u / 0x1000, u / 0x100 % 0x10, u / 0x10 % 0x10, u % 0x10] = u := by
    simp only [unit, List.foldl_cons, List.foldl_nil]
    omega
  simp only [hexText, List.map_cons, List.map_nil, List.cons_append, List.nil_append]
  rw [tokensFrom_digit (by omega) (by simp), tokensFrom_digit (by omega) (by simp),
    tokensFrom_digit (by omega) (by simp)]
  refine tokensFrom_quoted hlast.2 ?_
  simp only [quoted, hlast.1, Option.map_some, List.nil_append, List.cons_append, List.length_cons,
    List.length_nil, if_true, hunit]

theorem shortEscape_cases {u : Nat} {c : Char} (h : shortEscape u = some c) :
    c ≠ 'u' ∧ escaped c = some u ∧ c.toNat < 0x80 ∧ u < 0x80 := by
  unfold shortEscape at h
  split_ifs at h
  all_goals
    cases h
    subst u
    decide

theorem tokensFrom_backslash (s : Written Char) :
    tokensFrom (.string .plain s) (symbol '\\' :: rest) = tokensFrom (.string .escape s) rest :=
  tokensFrom_quoted (by decide) rfl

theorem tokensFrom_quoteUnit {u : Nat} (hu : u < 0x10000) (s : Written Char) :
    tokensFrom (.string .plain s) ((quoteUnit u).map symbol ++ rest) =
      tokensFrom (.string .plain (s ++ [writtenUnit u])) rest := by
  unfold quoteUnit
  split
  · rename_i c hshort
    obtain ⟨hne, hescaped, hc, hsmall⟩ := shortEscape_cases hshort
    rw [writtenUnit, if_pos (by simp [hsmall])]
    simp only [List.map_cons, List.map_nil, List.cons_append, List.nil_append]
    rw [tokensFrom_backslash]
    refine tokensFrom_quoted hc ?_
    simp only [quoted, if_neg hne, hescaped, Option.map_some]
  · rename_i hshort
    split_ifs with hdigits
    · have hwritten : writtenUnit u = .inl u := by
        refine if_pos ?_
        simp only [Bool.or_eq_true, decide_eq_true_eq] at hdigits ⊢
        exact hdigits.imp_left fun h => Nat.lt_trans h (by decide)
      rw [hwritten, List.map_cons, List.map_cons, List.cons_append, List.cons_append,
        tokensFrom_backslash, ← tokensFrom_hexText hu]
      exact tokensFrom_quoted (by decide) rfl
    · simp only [Bool.or_eq_true, decide_eq_true_eq, not_or, isSurrogate, Bool.and_eq_true,
        not_and] at hdigits
      obtain ⟨hcontrol, hsurrogate⟩ := hdigits
      have hnat : (Char.ofNat u).toNat = u := toNat_ofNat (by omega)
      rw [List.map_singleton, List.singleton_append]
      by_cases hsmall : u < 0x80
      · have hquote : Char.ofNat u ≠ '"' := by
          intro h
          rw [h] at hnat
          rw [← hnat] at hshort
          exact absurd hshort (by decide)
        have hback : Char.ofNat u ≠ '\\' := by
          intro h
          rw [h] at hnat
          rw [← hnat] at hshort
          exact absurd hshort (by decide)
        rw [writtenUnit, if_pos (by simp [hsmall])]
        refine tokensFrom_quoted (by rw [hnat]; exact hsmall) ?_
        simp only [quoted, if_neg hquote, if_neg hback, hnat, if_neg hcontrol]
      · have hwritten : writtenUnit u = .inr (Char.ofNat u) := by
          refine if_neg ?_
          simp only [Bool.or_eq_true, decide_eq_true_eq, not_or, isSurrogate, Bool.and_eq_true,
            not_and]
          exact ⟨hsmall, hsurrogate⟩
        rw [hwritten, symbol_of_ge (by rw [hnat]; exact hsmall), tokensFrom]

theorem units_inr (c : Char) (s : Written Char) : units (.inr c :: s) = utf16 c ++ units s := rfl

theorem units_writtenUnit {u : Nat} (hu : u < 0x10000) : units [writtenUnit u] = [u] := by
  unfold writtenUnit
  split_ifs with h
  · rfl
  · simp only [Bool.or_eq_true, decide_eq_true_eq, not_or, isSurrogate, Bool.and_eq_true,
      not_and] at h
    have hnat : (Char.ofNat u).toNat = u := toNat_ofNat (by omega)
    rw [units_inr, utf16, hnat, if_pos hu]
    rfl

theorem pairChar_spec {u v : Nat} (h : isPair u v = true) :
    ¬ (pairChar u v).toNat < 0x80 ∧ utf16 (pairChar u v) = [u, v] := by
  simp only [isPair, Bool.and_eq_true, decide_eq_true_eq] at h
  obtain ⟨⟨⟨hu, hu'⟩, hv⟩, hv'⟩ := h
  have hnat : (pairChar u v).toNat = 0x10000 + (u - 0xD800) * 0x400 + (v - 0xDC00) :=
    toNat_ofNat (by omega)
  refine ⟨by omega, ?_⟩
  have hhigh : 0xD800 + ((pairChar u v).toNat - 0x10000) / 0x400 = u := by omega
  have hlow : 0xDC00 + ((pairChar u v).toNat - 0x10000) % 0x400 = v := by omega
  rw [utf16, if_neg (by omega), hhigh, hlow]

theorem units_append (s s' : Written Char) : units (s ++ s') = units s ++ units s' :=
  List.flatMap_append

theorem exists_written {us : List Nat} (hus : Units us) : ∃ s' : Written Char, units s' = us ∧
    ∀ s rest, tokensFrom (.string .plain s) ((quoteUnits us).map symbol ++ rest) =
      tokensFrom (.string .plain (s ++ s')) rest := by
  induction us using quoteUnits.induct with
  | case1 => exact ⟨[], rfl, fun s rest => by rw [List.append_nil]; rfl⟩
  | case2 u =>
    have hu := hus u (List.mem_singleton_self u)
    exact ⟨_, units_writtenUnit hu, fun s rest => tokensFrom_quoteUnit hu s⟩
  | case3 u v us hpair ih =>
    obtain ⟨s', hunits, hread⟩ := ih fun w hw => hus w (by simp [hw])
    obtain ⟨hlarge, hutf16⟩ := pairChar_spec hpair
    refine ⟨.inr (pairChar u v) :: s', ?_, fun s rest => ?_⟩
    · rw [units_inr, hutf16, hunits]
      rfl
    · rw [quoteUnits, if_pos hpair, List.map_cons, List.cons_append, symbol_of_ge hlarge,
        tokensFrom, hread, List.append_assoc, List.singleton_append]
  | case4 u v us hpair ih =>
    obtain ⟨hu, hvus⟩ := List.forall_mem_cons.mp hus
    obtain ⟨s', hunits, hread⟩ := ih hvus
    refine ⟨writtenUnit u :: s', ?_, fun s rest => ?_⟩
    · rw [← List.singleton_append, units_append, units_writtenUnit hu, hunits]
      rfl
    · rw [quoteUnits, if_neg hpair, List.map_append, List.append_assoc, tokensFrom_quoteUnit hu,
        hread, List.append_assoc, List.singleton_append]

theorem lexesAs_quote {us : List Nat} (hus : Units us) : LexesAs (quote us) [.string us] := by
  intro rest _
  obtain ⟨s, hunits, hread⟩ := exists_written hus
  have hopen : ∀ text : List (Symbol Char), tokens (symbol '"' :: text) =
      tokensFrom (.string .plain []) text := by
    intro text
    rw [symbol_of_lt (by decide), tokens, tokensFrom_ascii]
    exact Option.map_id' ..
  have hclose : tokensFrom (.string .plain s) (symbol '"' :: rest) =
      (tokens rest).map (.string s :: ·) := by
    rw [symbol_of_lt (by decide), tokensFrom_ascii]
    rfl
  rw [quote, List.cons_append, List.map_cons, List.map_append, List.cons_append, List.append_assoc]
  unfold lex
  rw [hopen, hread, List.nil_append, List.map_singleton, List.singleton_append, hclose,
    Option.map_map, Option.map_map, ← hunits]
  rfl

section
variable {text text' : List Char} {toks toks' : List (Token (List Nat))}

theorem LexesAs.append (c : Char) {tok : Token (Written Char)} (h : LexesAs text toks)
    (hc : c.toNat < 0x80) (hword : isWordChar c = false)
    (htok : between c = some ([tok], .between)) (h' : LexesAs text' toks') :
    LexesAs (text ++ c :: text') (toks ++ tok.map units :: toks') := by
  intro rest hrest
  rw [List.map_append, List.append_assoc, List.map_cons, List.cons_append, symbol_of_lt hc,
    h _ (stops_cons hword _), lex_between htok, h' _ hrest, Option.map_map, Option.map_map]
  congr 1
  funext ts
  simp only [Function.comp_apply, List.append_assoc, List.cons_append]

theorem lexesAs_separated {parts : List (List Char)} {partToks : List (List (Token (List Nat)))}
    (h : List.Forall₂ LexesAs parts partToks) :
    LexesAs (separated ',' parts) (separated .comma partToks) := by
  induction h with
  | nil => exact fun rest _ => (Option.map_id' ..).symm
  | @cons part toks parts partToks hpart hparts ih =>
    cases hparts with
    | nil => exact hpart
    | cons => exact hpart.append ',' (by decide) (by decide) rfl ih

theorem LexesAs.bracketed (c c' : Char) {tok tok' : Token (Written Char)} (h : LexesAs text toks)
    (hc : c.toNat < 0x80) (hc' : c'.toNat < 0x80) (hword : isWordChar c' = false)
    (htok : between c = some ([tok], .between)) (htok' : between c' = some ([tok'], .between)) :
    LexesAs (c :: text ++ [c']) (tok.map units :: toks ++ [tok'.map units]) := by
  intro rest _
  rw [List.map_append, List.append_assoc, List.map_cons, List.cons_append, symbol_of_lt hc,
    lex_between htok, List.map_singleton, List.singleton_append, symbol_of_lt hc',
    h _ (stops_cons hword _), lex_between htok', Option.map_map, Option.map_map]
  congr 1
  funext ts
  simp only [Function.comp_apply, List.append_assoc, List.cons_append, List.nil_append]

end

theorem forall₂_texts {items : List (Tree (List Nat))}
    (h : ∀ t ∈ items, LexesAs t.text t.tokens) :
    List.Forall₂ LexesAs (texts items) (itemTokens items) := by
  induction items with
  | nil => exact .nil
  | cons t items ih =>
    obtain ⟨ht, hitems⟩ := List.forall_mem_cons.mp h
    exact .cons ht (ih hitems)

theorem forall₂_memberTexts {members : List (List Nat × Tree (List Nat))}
    (hnames : ∀ m ∈ members, Units m.1) (h : ∀ m ∈ members, LexesAs m.2.text m.2.tokens) :
    List.Forall₂ LexesAs (memberTexts members) (memberTokens members) := by
  induction members with
  | nil => exact .nil
  | cons m members ih =>
    obtain ⟨hname, hnames⟩ := List.forall_mem_cons.mp hnames
    obtain ⟨hm, hmembers⟩ := List.forall_mem_cons.mp h
    exact .cons ((lexesAs_quote hname).append ':' (by decide) (by decide) rfl hm) (ih hnames hmembers)

theorem lexesAs_text {t : Tree (List Nat)} (ht : t.Valid) : LexesAs t.text t.tokens := by
  induction ht with
  | scalar hx => exact lexesAs_scalar hx
  | string hus => exact lexesAs_quote hus
  | array _ ih =>
    exact (lexesAs_separated (forall₂_texts ih)).bracketed '[' ']' (by decide) (by decide)
      (by decide) rfl rfl
  | object hnames _ ih =>
    exact (lexesAs_separated (forall₂_memberTexts hnames ih)).bracketed '\x7b' '\x7d' (by decide)
      (by decide) (by decide) rfl rfl

theorem treeOf_text {t : Tree (List Nat)} (ht : t.Valid) : treeOf t.text = some t := by
  have hlex := lexesAs_text ht [] (Or.inl rfl)
  rw [List.append_nil] at hlex
  have htokens : lex (t.text.map symbol) = some t.tokens := by
    rw [hlex]
    exact congrArg some (List.append_nil _)
  obtain ⟨ts, hts, heq⟩ := Option.map_eq_some_iff.mp htokens
  rw [treeOf, hts, Option.bind_some, heq]
  exact tree_tokens t

theorem parse_text (toNumber : List Char → ν) {t : Tree (List Nat)} (ht : t.Valid) :
    parse toNumber t.text = some (t.value toNumber) := by
  rw [parse, treeOf_text ht]
  rfl

theorem ascii_quoteUnit {u : Nat} (h : u < 0x80) : ∀ c ∈ quoteUnit u, c.toNat < 0x80 := by
  have hall : ∀ u < 0x80, (quoteUnit u).all (·.toNat < 0x80) = true := by decide
  exact fun c hc => of_decide_eq_true (List.all_eq_true.mp (hall u h) c hc)

theorem isPair_of_lt {u v : Nat} (h : u < 0x80) : isPair u v = false := by
  have hlow : ¬ 0xD800 ≤ u := by omega
  simp [isPair, hlow]

theorem ascii_quoteUnits {us : List Nat} (h : ∀ u ∈ us, u < 0x80) :
    ∀ c ∈ quoteUnits us, c.toNat < 0x80 := by
  induction us using quoteUnits.induct with
  | case1 => exact List.forall_mem_nil _
  | case2 u => exact ascii_quoteUnit (h u (List.mem_singleton_self u))
  | case3 u v us hpair _ =>
    rw [isPair_of_lt (h u (List.mem_cons_self ..))] at hpair
    cases hpair
  | case4 u v us hpair ih =>
    obtain ⟨hu, hus⟩ := List.forall_mem_cons.mp h
    rw [quoteUnits, if_neg hpair]
    intro c hc
    rcases List.mem_append.mp hc with hc | hc
    · exact ascii_quoteUnit hu c hc
    · exact ih hus c hc

theorem ascii_quote {us : List Nat} (h : ∀ u ∈ us, u < 0x80) : ∀ c ∈ quote us, c.toNat < 0x80 := by
  intro c hc
  rw [quote, List.cons_append, List.mem_cons, List.mem_append, List.mem_singleton] at hc
  rcases hc with rfl | hc | rfl
  · decide
  · exact ascii_quoteUnits h c hc
  · decide

end Json
