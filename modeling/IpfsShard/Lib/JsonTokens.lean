import Mathlib.Data.List.Basic
import Mathlib.Tactic.Common

/-! The tokens of a JSON text. A character outside ASCII can only stand in a string, and there
for itself: which one it is does not matter to the grammar. -/

namespace Json

/-- A character of a text: the grammar knows those of ASCII only. -/
inductive Symbol (α : Type*) where
  | ascii (c : Char)
  | other (a : α)

inductive Scalar where
  | null
  | bool (b : Bool)
  | number (digits : List Char)
  deriving DecidableEq

inductive Token (σ : Type*) where
  | leftBrace
  | rightBrace
  | leftBracket
  | rightBracket
  | colon
  | comma
  | scalar (x : Scalar)
  | string (s : σ)
  deriving DecidableEq

abbrev Written (α : Type*) := List (Nat ⊕ α)

/-- Where a string stands: at a character, behind a backslash, or within the digits of a unit. -/
inductive Quoted where
  | plain
  | escape
  | hex (digits : List Nat)

inductive Mode (α : Type*) where
  | between
  | word (w : List Char)
  | string (q : Quoted) (s : Written α)

def digits : List Char → Option (List Char)
  | [] => none
  | c :: w => if c.isDigit then some (w.dropWhile Char.isDigit) else none

def natural : List Char → Option (List Char)
  | '0' :: w => some w
  | w => digits w

def integer : List Char → Option (List Char)
  | '-' :: w => natural w
  | w => natural w

def fraction : List Char → Option (List Char)
  | '.' :: w => digits w
  | w => some w

def unsigned : List Char → List Char
  | '+' :: w => w
  | '-' :: w => w
  | w => w

def exponent : List Char → Option (List Char)
  | 'e' :: w => digits (unsigned w)
  | 'E' :: w => digits (unsigned w)
  | w => some w

def isNumber (w : List Char) : Bool :=
  ((integer w).bind fun w => (fraction w).bind exponent) = some []

def isWhitespace (c : Char) : Bool :=
  c = ' ' || c = '\t' || c = '\n' || c = '\r'

def isWordChar (c : Char) : Bool :=
  c.isAlphanum || c = '+' || c = '-' || c = '.'

def scalar (w : List Char) : Option Scalar :=
  if w = ['t', 'r', 'u', 'e'] then some (.bool true)
  else if w = ['f', 'a', 'l', 's', 'e'] then some (.bool false)
  else if w = ['n', 'u', 'l', 'l'] then some .null
  else if isNumber w then some (.number w)
  else none

def escaped : Char → Option Nat
  | '"' => some 0x22
  | '\\' => some 0x5C
  | '/' => some 0x2F
  | 'b' => some 0x08
  | 'f' => some 0x0C
  | 'n' => some 0x0A
  | 'r' => some 0x0D
  | 't' => some 0x09
  | _ => none

def hexDigit (c : Char) : Option Nat :=
  if '0' ≤ c ∧ c ≤ '9' then some (c.toNat - 0x30)
  else if 'a' ≤ c ∧ c ≤ 'f' then some (c.toNat - 0x61 + 10)
  else if 'A' ≤ c ∧ c ≤ 'F' then some (c.toNat - 0x41 + 10)
  else none

def unit (digits : List Nat) : Nat := digits.foldl (fun n d => n * 16 + d) 0

variable {α β σ τ : Type*}

def punctuation : Char → Option (Token σ)
  | '\x7b' => some .leftBrace
  | '\x7d' => some .rightBrace
  | '[' => some .leftBracket
  | ']' => some .rightBracket
  | ':' => some .colon
  | ',' => some .comma
  | _ => none

abbrev Read (α : Type*) := List (Token (Written α)) × Mode α

def between (c : Char) : Option (Read α) :=
  if isWhitespace c then some ([], .between)
  else if c = '"' then some ([], .string .plain [])
  else if isWordChar c then some ([], .word [c])
  else (punctuation c).map fun t => ([t], .between)

def word (w : List Char) (c : Char) : Option (Read α) :=
  if isWordChar c then some ([], .word (w ++ [c]))
  else (scalar w).bind fun x => (between c).map fun r => (.scalar x :: r.1, r.2)

def quoted (s : Written α) (c : Char) : Quoted → Option (Read α)
  | .plain =>
    if c = '"' then some ([.string s], .between)
    else if c = '\\' then some ([], .string .escape s)
    else if c.toNat < 0x20 then none
    else some ([], .string .plain (s ++ [.inl c.toNat]))
  | .escape =>
    if c = 'u' then some ([], .string (.hex []) s)
    else (escaped c).map fun u => ([], .string .plain (s ++ [.inl u]))
  | .hex digits => (hexDigit c).map fun d =>
    if digits.length = 3 then ([], .string .plain (s ++ [.inl (unit (digits ++ [d]))]))
    else ([], .string (.hex (digits ++ [d])) s)

def read (c : Char) : Mode α → Option (Read α)
  | .between => between c
  | .word w => word w c
  | .string q s => quoted s c q

def tokensFrom : Mode α → List (Symbol α) → Option (List (Token (Written α)))
  | .between, [] => some []
  | .word w, [] => (scalar w).map fun x => [.scalar x]
  | .string _ _, [] => none
  | mode, .ascii c :: text => (read c mode).bind fun r => (tokensFrom r.2 text).map (r.1 ++ ·)
  | .string .plain s, .other a :: text => tokensFrom (.string .plain (s ++ [.inr a])) text
  | _, .other _ :: _ => none

def tokens (text : List (Symbol α)) : Option (List (Token (Written α))) := tokensFrom .between text

def Token.map (f : σ → τ) : Token σ → Token τ
  | .leftBrace => .leftBrace
  | .rightBrace => .rightBrace
  | .leftBracket => .leftBracket
  | .rightBracket => .rightBracket
  | .colon => .colon
  | .comma => .comma
  | .scalar x => .scalar x
  | .string s => .string (f s)

def expand (e : α → List β) (text : List (Symbol α)) : List (Symbol β) :=
  text.flatMap fun
    | .ascii c => [.ascii c]
    | .other a => (e a).map .other

def expandWritten (e : α → List β) (s : Written α) : Written β :=
  s.flatMap (Sum.elim (fun u => [.inl u]) (fun a => (e a).map .inr))

def Mode.expand (e : α → List β) : Mode α → Mode β
  | .between => .between
  | .word w => .word w
  | .string q s => .string q (expandWritten e s)

def expandRead (e : α → List β) (r : Read α) : Read β :=
  (r.1.map (Token.map (expandWritten e)), r.2.expand e)

theorem expandWritten_concat (e : α → List β) (s : Written α) (x : Nat ⊕ α) :
    expandWritten e (s ++ [x]) = expandWritten e s ++ expandWritten e [x] := List.flatMap_append

theorem between_expand (e : α → List β) (c : Char) :
    between c = (between c).map (expandRead e) := by
  unfold between
  split_ifs
  · rfl
  · rfl
  · rfl
  · unfold punctuation
    split <;> rfl

theorem word_expand (e : α → List β) (w : List Char) (c : Char) :
    word w c = (word w c).map (expandRead e) := by
  unfold word
  split_ifs
  · rfl
  · rw [between_expand e c]
    cases scalar w with
    | none => rfl
    | some x =>
      cases (between c : Option (Read α)) with
      | none => rfl
      | some r => rfl

theorem quoted_expand (e : α → List β) (s : Written α) (c : Char) (q : Quoted) :
    quoted (expandWritten e s) c q = (quoted s c q).map (expandRead e) := by
  have hplain (u : Nat) : (([], .string .plain (expandWritten e s ++ [.inl u])) : Read β) =
      expandRead e ([], .string .plain (s ++ [.inl u])) := by
    rw [expandRead, Mode.expand, expandWritten_concat]
    rfl
  cases q with
  | plain =>
    simp only [quoted]
    split_ifs
    · rfl
    · rfl
    · rfl
    · exact congrArg some (hplain c.toNat)
  | escape =>
    simp only [quoted]
    split_ifs
    · rfl
    · cases escaped c with
      | none => rfl
      | some u => exact congrArg some (hplain u)
  | hex digits =>
    simp only [quoted]
    cases hexDigit c with
    | none => rfl
    | some d =>
      simp only [Option.map_some]
      split_ifs
      · exact congrArg some (hplain _)
      · rfl

theorem read_expand (e : α → List β) (c : Char) (mode : Mode α) :
    read c (mode.expand e) = (read c mode).map (expandRead e) := by
  cases mode with
  | between => exact between_expand e c
  | word w => exact word_expand e w c
  | string q s => exact quoted_expand e s c q

theorem tokensFrom_ascii (mode : Mode α) (c : Char) (text : List (Symbol α)) :
    tokensFrom mode (.ascii c :: text) =
      (read c mode).bind fun r => (tokensFrom r.2 text).map (r.1 ++ ·) := by rw [tokensFrom]

theorem tokensFrom_others (s : Written α) (others : List α) (text : List (Symbol α)) :
    tokensFrom (.string .plain s) (others.map .other ++ text) =
      tokensFrom (.string .plain (s ++ others.map .inr)) text := by
  induction others generalizing s with
  | nil => rw [List.map_nil, List.map_nil, List.append_nil, List.nil_append]
  | cons a others ih =>
    rw [List.map_cons, List.cons_append, tokensFrom, ih, List.append_assoc]
    rfl

theorem tokensFrom_expand {e : α → List β} (he : ∀ a, e a ≠ []) (mode : Mode α)
    (text : List (Symbol α)) :
    tokensFrom (mode.expand e) (expand e text) =
      (tokensFrom mode text).map (List.map (Token.map (expandWritten e))) := by
  induction text generalizing mode with
  | nil =>
    cases mode with
    | between => rfl
    | word w =>
      change (scalar w).map _ = ((scalar w).map _).map _
      rw [Option.map_map]
      rfl
    | string q s => rfl
  | cons symbol text ih =>
    cases symbol with
    | ascii c =>
      change tokensFrom (mode.expand e) (.ascii c :: expand e text) = _
      rw [tokensFrom_ascii, tokensFrom_ascii, read_expand, Option.bind_map, Option.map_bind]
      congr 1
      funext r
      change (tokensFrom (r.2.expand e) (expand e text)).map _ = _
      rw [ih, Option.map_map, Function.comp_apply, Option.map_map]
      congr 1
      funext ts
      exact List.map_append.symm
    | other a =>
      have hcons : expand e (.other a :: text) = (e a).map .other ++ expand e text := rfl
      have hplain (s : Written α) : tokensFrom ((Mode.string .plain s).expand e)
          ((e a).map .other ++ expand e text) =
            tokensFrom ((Mode.string .plain (s ++ [.inr a])).expand e) (expand e text) := by
        rw [Mode.expand, tokensFrom_others, Mode.expand, expandWritten_concat]
        congr 3
        exact (List.append_nil _).symm
      obtain ⟨b, others, hothers⟩ := List.exists_cons_of_ne_nil (he a)
      rw [hcons]
      cases mode with
      | between => rw [hothers]; rfl
      | word w => rw [hothers]; rfl
      | string q s =>
        cases q with
        | plain => exact (hplain s).trans (ih _)
        | escape => rw [hothers]; rfl
        | hex digits => rw [hothers]; rfl

theorem tokens_expand {e : α → List β} (he : ∀ a, e a ≠ []) (text : List (Symbol α)) :
    tokens (expand e text) = (tokens text).map (List.map (Token.map (expandWritten e))) :=
  tokensFrom_expand he .between text

def Token.All (Q : σ → Prop) : Token σ → Prop
  | .string s => Q s
  | _ => True

def Others (Q : α → Prop) (s : Written α) : Prop := ∀ a, .inr a ∈ s → Q a

def Mode.Others (Q : α → Prop) : Mode α → Prop
  | .string _ s => Json.Others Q s
  | _ => True

theorem others_of_append {Q : α → Prop} {s s' : Written α} (h : Others Q (s ++ s')) : Others Q s :=
  fun a ha => h a (List.mem_append_left s' ha)

theorem quoted_others {Q : α → Prop} {s : Written α} {c : Char} {q : Quoted} {r : Read α}
    (h : quoted s c q = some r) (hts : ∀ t ∈ r.1, t.All (Others Q)) (hr : r.2.Others Q) :
    Others Q s := by
  cases q with
  | plain =>
    simp only [quoted] at h
    split_ifs at h <;> cases h
    · exact hts _ (List.mem_singleton_self _)
    · exact hr
    · exact others_of_append hr
  | escape =>
    simp only [quoted] at h
    split_ifs at h
    · cases h
      exact hr
    · obtain ⟨u, -, rfl⟩ := Option.map_eq_some_iff.mp h
      exact others_of_append hr
  | hex digits =>
    obtain ⟨d, -, rfl⟩ := Option.map_eq_some_iff.mp h
    split_ifs at hts hr
    · exact others_of_append hr
    · exact hr

theorem read_others {Q : α → Prop} {c : Char} {mode : Mode α} {r : Read α}
    (h : read c mode = some r) (hts : ∀ t ∈ r.1, t.All (Others Q)) (hr : r.2.Others Q) :
    mode.Others Q := by
  cases mode with
  | between => trivial
  | word w => trivial
  | string q s => exact quoted_others h hts hr

theorem tokensFrom_holds {Q : α → Prop} {mode : Mode α} {text : List (Symbol α)}
    {ts : List (Token (Written α))} (h : tokensFrom mode text = some ts)
    (hts : ∀ t ∈ ts, t.All (Others Q)) : mode.Others Q ∧ ∀ a, .other a ∈ text → Q a := by
  induction text generalizing mode ts with
  | nil =>
    refine ⟨?_, fun a ha => absurd ha List.not_mem_nil⟩
    cases mode with
    | between => trivial
    | word w => trivial
    | string q s => cases h
  | cons symbol text ih =>
    cases symbol with
    | ascii c =>
      rw [tokensFrom_ascii] at h
      obtain ⟨r, hread, hrest⟩ := Option.bind_eq_some_iff.mp h
      obtain ⟨ts', hts', rfl⟩ := Option.map_eq_some_iff.mp hrest
      obtain ⟨hfirst, hbehind⟩ := List.forall_mem_append.mp hts
      obtain ⟨hr, htext⟩ := ih hts' hbehind
      refine ⟨read_others hread hfirst hr, fun a ha => htext a ?_⟩
      exact (List.mem_cons.mp ha).resolve_left nofun
    | other a =>
      cases mode with
      | between => cases h
      | word w => cases h
      | string q s =>
        cases q with
        | plain =>
          obtain ⟨hs, htext⟩ := ih h hts
          refine ⟨others_of_append hs, fun a' ha' => ?_⟩
          rcases List.mem_cons.mp ha' with heq | hmem
          · cases heq
            exact hs a (List.mem_append_right s (List.mem_singleton_self _))
          · exact htext a' hmem
        | escape => cases h
        | hex digits => cases h

theorem tokens_holds {Q : α → Prop} {text : List (Symbol α)} {ts : List (Token (Written α))}
    (h : tokens text = some ts) (hts : ∀ t ∈ ts, t.All (Others Q)) :
    ∀ a, .other a ∈ text → Q a := (tokensFrom_holds h hts).2

end Json
