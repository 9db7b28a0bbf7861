import IpfsShard.Lib.JsonTokens
import Mathlib.Algebra.Order.BigOperators.Group.List
import Mathlib.Algebra.Order.Group.Nat
import Mathlib.Data.List.Perm.Subperm

/-! The tree that the tokens of a JSON text form, and the value that the tree denotes. Of the
members of an object with one name the last one counts. -/

namespace Json

variable {α σ τ ν : Type*}

inductive Tree (σ : Type*) where
  | scalar (x : Scalar)
  | string (s : σ)
  | array (items : List (Tree σ))
  | object (members : List (σ × Tree σ))

theorem Tree.induct {P : Tree σ → Prop} (scalar : ∀ x, P (.scalar x)) (string : ∀ s, P (.string s))
    (array : ∀ items, (∀ t ∈ items, P t) → P (.array items))
    (object : ∀ members, (∀ m ∈ members, P m.2) → P (.object members)) (t : Tree σ) : P t :=
  @Tree.rec σ P (fun items => ∀ t ∈ items, P t) (fun members => ∀ m ∈ members, P m.2)
    (fun m => P m.2) scalar string array object
    (List.forall_mem_nil _) (fun _ _ h hs => List.forall_mem_cons.mpr ⟨h, hs⟩)
    (List.forall_mem_nil _) (fun _ _ h hs => List.forall_mem_cons.mpr ⟨h, hs⟩) (fun _ _ h => h) t

/-- An array or an object that is not complete, and a member that lacks its value. -/
inductive Frame (σ : Type*) where
  | array (items : List (Tree σ))
  | object (members : List (σ × Tree σ))
  | member (members : List (σ × Tree σ)) (name : σ)

/-- What may come next; `first` and `firstName` may also be the end. -/
inductive Expect where
  | value
  | first
  | firstName
  | name
  | colon
  | more

inductive Parser (σ : Type*) where
  | within (expect : Expect) (stack : List (Frame σ))
  | done (t : Tree σ)

def complete (t : Tree σ) : List (Frame σ) → Option (Parser σ)
  | [] => some (.done t)
  | .array items :: stack => some (.within .more (.array (items ++ [t]) :: stack))
  | .member members name :: stack =>
    some (.within .more (.object (members ++ [(name, t)]) :: stack))
  | .object _ :: _ => none

def first (stack : List (Frame σ)) : Token σ → Option (Parser σ)
  | .leftBracket => some (.within .first (.array [] :: stack))
  | .leftBrace => some (.within .firstName (.object [] :: stack))
  | .scalar x => complete (.scalar x) stack
  | .string s => complete (.string s) stack
  | _ => none

def name : List (Frame σ) → Token σ → Option (Parser σ)
  | .object members :: stack, .string s => some (.within .colon (.member members s :: stack))
  | _, _ => none

def close : List (Frame σ) → Token σ → Option (Parser σ)
  | .array items :: stack, .rightBracket => complete (.array items) stack
  | .object members :: stack, .rightBrace => complete (.object members) stack
  | _, _ => none

def comma : List (Frame σ) → Token σ → Option (Parser σ)
  | .array items :: stack, .comma => some (.within .value (.array items :: stack))
  | .object members :: stack, .comma => some (.within .name (.object members :: stack))
  | _, _ => none

def colon (stack : List (Frame σ)) : Token σ → Option (Parser σ)
  | .colon => some (.within .value stack)
  | _ => none

def step : Parser σ → Token σ → Option (Parser σ)
  | .within .value stack, t => first stack t
  | .within .first stack, t => (first stack t).or (close stack t)
  | .within .firstName stack, t => (name stack t).or (close stack t)
  | .within .name stack, t => name stack t
  | .within .colon stack, t => colon stack t
  | .within .more stack, t => (comma stack t).or (close stack t)
  | .done _, _ => none

def treeFrom : Parser σ → List (Token σ) → Option (Tree σ)
  | .within _ _, [] => none
  | .done t, [] => some t
  | p, t :: ts => (step p t).bind fun p => treeFrom p ts

def tree (ts : List (Token σ)) : Option (Tree σ) := treeFrom (.within .value []) ts

mutual

def Tree.map (f : σ → τ) : Tree σ → Tree τ
  | .scalar x => .scalar x
  | .string s => .string (f s)
  | .array items => .array (mapItems f items)
  | .object members => .object (mapMembers f members)

def mapItems (f : σ → τ) : List (Tree σ) → List (Tree τ)
  | [] => []
  | t :: items => t.map f :: mapItems f items

def mapMembers (f : σ → τ) : List (σ × Tree σ) → List (τ × Tree τ)
  | [] => []
  | (name, t) :: members => (f name, t.map f) :: mapMembers f members

end

theorem mapItems_eq (f : σ → τ) (items : List (Tree σ)) :
    mapItems f items = items.map (Tree.map f) := by
  induction items with
  | nil => rfl
  | cons t items ih => rw [mapItems, ih, List.map_cons]

theorem mapMembers_eq (f : σ → τ) (members : List (σ × Tree σ)) :
    mapMembers f members = members.map (Prod.map f (Tree.map f)) := by
  induction members with
  | nil => rfl
  | cons m members ih => rw [mapMembers, ih, List.map_cons, Prod.map]

def Frame.map (f : σ → τ) : Frame σ → Frame τ
  | .array items => .array (mapItems f items)
  | .object members => .object (mapMembers f members)
  | .member members name => .member (mapMembers f members) (f name)

def Parser.map (f : σ → τ) : Parser σ → Parser τ
  | .within expect stack => .within expect (stack.map (Frame.map f))
  | .done t => .done (t.map f)

variable (f : σ → τ)

theorem complete_map (t : Tree σ) (stack : List (Frame σ)) :
    complete (t.map f) (stack.map (Frame.map f)) = (complete t stack).map (Parser.map f) := by
  rcases stack with _ | ⟨frame, stack⟩
  · rfl
  · cases frame with
    | array items =>
      refine congrArg (fun items => some (Parser.within .more (.array items :: _))) ?_
      rw [mapItems_eq, mapItems_eq, List.map_append]
      rfl
    | object members => rfl
    | member members name =>
      refine congrArg (fun members => some (Parser.within .more (.object members :: _))) ?_
      rw [mapMembers_eq, mapMembers_eq, List.map_append]
      rfl

theorem first_map (stack : List (Frame σ)) (t : Token σ) :
    first (stack.map (Frame.map f)) (t.map f) = (first stack t).map (Parser.map f) := by
  cases t with
  | scalar x => exact complete_map f (.scalar x) stack
  | string s => exact complete_map f (.string s) stack
  | _ => rfl

theorem name_map (stack : List (Frame σ)) (t : Token σ) :
    name (stack.map (Frame.map f)) (t.map f) = (name stack t).map (Parser.map f) := by
  rcases stack with _ | ⟨_ | _ | _, stack⟩ <;> cases t <;> rfl

theorem close_map (stack : List (Frame σ)) (t : Token σ) :
    close (stack.map (Frame.map f)) (t.map f) = (close stack t).map (Parser.map f) := by
  rcases stack with _ | ⟨items | members | _, stack⟩
  · rfl
  · cases t with
    | rightBracket => exact complete_map f (.array items) stack
    | _ => rfl
  · cases t with
    | rightBrace => exact complete_map f (.object members) stack
    | _ => rfl
  · rfl

theorem comma_map (stack : List (Frame σ)) (t : Token σ) :
    comma (stack.map (Frame.map f)) (t.map f) = (comma stack t).map (Parser.map f) := by
  rcases stack with _ | ⟨_ | _ | _, stack⟩ <;> cases t <;> rfl

theorem step_map (p : Parser σ) (t : Token σ) :
    step (p.map f) (t.map f) = (step p t).map (Parser.map f) := by
  cases p with
  | done t' => rfl
  | within expect stack =>
    cases expect with
    | value => exact first_map f stack t
    | first => simp only [Parser.map, step, first_map, close_map, Option.map_or]
    | firstName => simp only [Parser.map, step, name_map, close_map, Option.map_or]
    | name => exact name_map f stack t
    | colon => cases t <;> rfl
    | more => simp only [Parser.map, step, comma_map, close_map, Option.map_or]

theorem treeFrom_map (p : Parser σ) (ts : List (Token σ)) :
    treeFrom (p.map f) (ts.map (Token.map f)) = (treeFrom p ts).map (Tree.map f) := by
  induction ts generalizing p with
  | nil => cases p <;> rfl
  | cons t ts ih =>
    rw [List.map_cons, treeFrom, treeFrom, step_map, Option.bind_map, Option.map_bind]
    congr 1
    funext p'
    exact ih p'

theorem tree_map (ts : List (Token σ)) :
    tree (ts.map (Token.map f)) = (tree ts).map (Tree.map f) :=
  treeFrom_map f (.within .value []) ts

inductive Tree.All (Q : σ → Prop) : Tree σ → Prop where
  | scalar (x : Scalar) : All Q (.scalar x)
  | string {s : σ} : Q s → All Q (.string s)
  | array {items : List (Tree σ)} : (∀ t ∈ items, All Q t) → All Q (.array items)
  | object {members : List (σ × Tree σ)} : (∀ m ∈ members, Q m.1) →
      (∀ m ∈ members, All Q m.2) → All Q (.object members)

theorem Tree.All.imp {Q Q' : σ → Prop} (h : ∀ s, Q s → Q' s) {t : Tree σ} (ht : t.All Q) :
    t.All Q' := by
  induction ht with
  | scalar x => exact .scalar x
  | string hs => exact .string (h _ hs)
  | array _ ih => exact .array ih
  | object hnames _ ih => exact .object (fun m hm => h m.1 (hnames m hm)) ih

def Frame.All (Q : σ → Prop) : Frame σ → Prop
  | .array items => ∀ t ∈ items, t.All Q
  | .object members => ∀ m ∈ members, Q m.1 ∧ m.2.All Q
  | .member members name => (∀ m ∈ members, Q m.1 ∧ m.2.All Q) ∧ Q name

def Parser.All (Q : σ → Prop) : Parser σ → Prop
  | .within _ stack => ∀ frame ∈ stack, frame.All Q
  | .done t => t.All Q

variable {Q : σ → Prop} {stack : List (Frame σ)} {p p' : Parser σ} {t : Token σ}

theorem complete_all {t : Tree σ} (h : complete t stack = some p) (hp : p.All Q) :
    t.All Q ∧ ∀ frame ∈ stack, frame.All Q := by
  rcases stack with _ | ⟨items | members | ⟨members, name⟩, stack⟩
  · cases h
    exact ⟨hp, List.forall_mem_nil _⟩
  · cases h
    obtain ⟨hitems, hstack⟩ := List.forall_mem_cons.mp hp
    obtain ⟨hitems, ht⟩ := List.forall_mem_append.mp hitems
    exact ⟨ht t (List.mem_singleton_self t), List.forall_mem_cons.mpr ⟨hitems, hstack⟩⟩
  · cases h
  · cases h
    obtain ⟨hmembers, hstack⟩ := List.forall_mem_cons.mp hp
    obtain ⟨hmembers, hlast⟩ := List.forall_mem_append.mp hmembers
    obtain ⟨hname, ht⟩ := hlast (name, t) (List.mem_singleton_self _)
    exact ⟨ht, List.forall_mem_cons.mpr ⟨⟨hmembers, hname⟩, hstack⟩⟩

theorem first_all (h : first stack t = some p) (hp : p.All Q) :
    t.All Q ∧ ∀ frame ∈ stack, frame.All Q := by
  cases t with
  | leftBracket =>
    cases h
    exact ⟨trivial, (List.forall_mem_cons.mp hp).2⟩
  | leftBrace =>
    cases h
    exact ⟨trivial, (List.forall_mem_cons.mp hp).2⟩
  | scalar x => exact ⟨trivial, (complete_all h hp).2⟩
  | string s =>
    obtain ⟨hs, hstack⟩ := complete_all h hp
    cases hs with
    | string hs => exact ⟨hs, hstack⟩
  | _ => cases h

theorem name_all (h : name stack t = some p) (hp : p.All Q) :
    t.All Q ∧ ∀ frame ∈ stack, frame.All Q := by
  rcases stack with _ | ⟨_ | members | _, stack⟩
  · cases h
  · cases h
  · cases t with
    | string s =>
      cases h
      obtain ⟨⟨hmembers, hs⟩, hstack⟩ := List.forall_mem_cons.mp hp
      exact ⟨hs, List.forall_mem_cons.mpr ⟨hmembers, hstack⟩⟩
    | _ => cases h
  · cases h

theorem close_all (h : close stack t = some p) (hp : p.All Q) :
    t.All Q ∧ ∀ frame ∈ stack, frame.All Q := by
  rcases stack with _ | ⟨items | members | _, stack⟩
  · cases h
  · cases t with
    | rightBracket =>
      obtain ⟨harray, hstack⟩ := complete_all h hp
      cases harray with
      | array hitems => exact ⟨trivial, List.forall_mem_cons.mpr ⟨hitems, hstack⟩⟩
    | _ => cases h
  · cases t with
    | rightBrace =>
      obtain ⟨hobject, hstack⟩ := complete_all h hp
      cases hobject with
      | object hnames hvalues =>
        exact ⟨trivial, List.forall_mem_cons.mpr ⟨fun m hm => ⟨hnames m hm, hvalues m hm⟩, hstack⟩⟩
    | _ => cases h
  · cases h

theorem comma_all (h : comma stack t = some p) (hp : p.All Q) :
    t.All Q ∧ ∀ frame ∈ stack, frame.All Q := by
  rcases stack with _ | ⟨_ | _ | _, stack⟩
  · cases h
  · cases t with
    | comma =>
      cases h
      exact ⟨trivial, hp⟩
    | _ => cases h
  · cases t with
    | comma =>
      cases h
      exact ⟨trivial, hp⟩
    | _ => cases h
  · cases h

theorem colon_all (h : colon stack t = some p) (hp : p.All Q) :
    t.All Q ∧ ∀ frame ∈ stack, frame.All Q := by
  cases t with
  | colon =>
    cases h
    exact ⟨trivial, hp⟩
  | _ => cases h

theorem step_all (h : step p t = some p') (hp : p'.All Q) : t.All Q ∧ p.All Q := by
  cases p with
  | done t' => cases h
  | within expect stack =>
    cases expect with
    | value => exact first_all h hp
    | first => exact (Option.or_eq_some_iff.mp h).elim (first_all · hp) (close_all ·.2 hp)
    | firstName => exact (Option.or_eq_some_iff.mp h).elim (name_all · hp) (close_all ·.2 hp)
    | name => exact name_all h hp
    | colon => exact colon_all h hp
    | more => exact (Option.or_eq_some_iff.mp h).elim (comma_all · hp) (close_all ·.2 hp)

theorem treeFrom_all {ts : List (Token σ)} {t : Tree σ} (h : treeFrom p ts = some t)
    (ht : t.All Q) : p.All Q ∧ ∀ t ∈ ts, t.All Q := by
  induction ts generalizing p with
  | nil =>
    cases p with
    | within expect stack => cases h
    | done t' =>
      cases h
      exact ⟨ht, List.forall_mem_nil _⟩
  | cons t' ts ih =>
    rw [treeFrom] at h
    obtain ⟨p', hstep, hrest⟩ := Option.bind_eq_some_iff.mp h
    obtain ⟨hp', hts⟩ := ih hrest
    obtain ⟨ht', hp⟩ := step_all hstep hp'
    exact ⟨hp, List.forall_mem_cons.mpr ⟨ht', hts⟩⟩

theorem tree_all {ts : List (Token σ)} {t : Tree σ} (h : tree ts = some t) (ht : t.All Q) :
    ∀ t ∈ ts, t.All Q := (treeFrom_all h ht).2

/-- An object answers what its member of a name is. -/
inductive Value (ν : Type*) where
  | null
  | bool (b : Bool)
  | number (x : ν)
  | string (units : List Nat)
  | array (items : List (Value ν))
  | object (member : List Nat → Option (Value ν))

def Scalar.value (toNumber : List Char → ν) : Scalar → Value ν
  | .null => .null
  | .bool b => .bool b
  | .number digits => .number (toNumber digits)

mutual

def Tree.value (toNumber : List Char → ν) : Tree (List Nat) → Value ν
  | .scalar x => x.value toNumber
  | .string units => .string units
  | .array items => .array (values toNumber items)
  | .object members => .object fun key => member toNumber members key

def values (toNumber : List Char → ν) : List (Tree (List Nat)) → List (Value ν)
  | [] => []
  | t :: items => t.value toNumber :: values toNumber items

def member (toNumber : List Char → ν) :
    List (List Nat × Tree (List Nat)) → List Nat → Option (Value ν)
  | [], _ => none
  | (name, t) :: members, key =>
    (member toNumber members key).or (if name = key then some (t.value toNumber) else none)

end

variable (toNumber : List Char → ν)

theorem values_eq (items : List (Tree (List Nat))) :
    values toNumber items = items.map (Tree.value toNumber) := by
  induction items with
  | nil => rfl
  | cons t items ih => rw [values, ih, List.map_cons]

theorem isSome_member (members : List (List Nat × Tree (List Nat))) (key : List Nat) :
    (member toNumber members key).isSome ↔ key ∈ members.map Prod.fst := by
  induction members with
  | nil => exact ⟨fun h => absurd h Bool.false_ne_true, fun h => absurd h List.not_mem_nil⟩
  | cons m members ih =>
    rw [member, Option.isSome_or, Bool.or_eq_true, ih, List.map_cons, List.mem_cons, or_comm]
    refine or_congr ?_ Iff.rfl
    split_ifs with hname
    · exact ⟨fun _ => hname.symm, fun _ => rfl⟩
    · exact ⟨fun h => absurd h Bool.false_ne_true, fun h => absurd h.symm hname⟩

theorem member_of_mem {members : List (List Nat × Tree (List Nat))}
    (hnames : (members.map Prod.fst).Nodup) {m : List Nat × Tree (List Nat)} (hm : m ∈ members) :
    member toNumber members m.1 = some (m.2.value toNumber) := by
  induction members with
  | nil => exact absurd hm List.not_mem_nil
  | cons m' members ih =>
    rw [List.map_cons, List.nodup_cons] at hnames
    obtain ⟨hfresh, hnames⟩ := hnames
    rw [member]
    rcases List.mem_cons.mp hm with rfl | hm
    · have hnone : member toNumber members m.1 = none := by
        rw [← Option.not_isSome_iff_eq_none, isSome_member]
        exact hfresh
      rw [hnone, if_pos rfl]
      rfl
    · rw [ih hnames hm]
      rfl

inductive Tree.Distinct : Tree σ → Prop where
  | scalar (x : Scalar) : Distinct (.scalar x)
  | string (s : σ) : Distinct (.string s)
  | array {items : List (Tree σ)} : (∀ t ∈ items, Distinct t) → Distinct (.array items)
  | object {members : List (σ × Tree σ)} : (members.map Prod.fst).Nodup →
      (∀ m ∈ members, Distinct m.2) → Distinct (.object members)

variable {toNumber} {f g : σ → List Nat} {r : List Nat → Nat}

theorem eq_of_subset (h : ∀ s, f s = g s ∨ r (f s) < r (g s)) {names : List σ}
    (hnames : (names.map f).Nodup) (hsubset : names.map f ⊆ names.map g) :
    ∀ s ∈ names, f s = g s := by
  have hlength : (names.map g).length ≤ (names.map f).length := by
    rw [List.length_map, List.length_map]
  have hperm := (List.subperm_of_subset hnames hsubset).perm_of_length_le hlength
  have hsum := (hperm.map r).sum_eq
  rw [List.map_map, List.map_map] at hsum
  have hle (s : σ) : r (f s) ≤ r (g s) := (h s).elim (fun heq => heq ▸ le_rfl) le_of_lt
  intro s hs
  by_contra hne
  have hlt := (h s).resolve_left hne
  exact hsum.not_lt (List.sum_lt_sum _ _ (fun s _ => hle s) ⟨s, hs, hlt⟩)

theorem names_map (members : List (σ × Tree σ)) (f : σ → τ) :
    (mapMembers f members).map Prod.fst = (members.map Prod.fst).map f := by
  rw [mapMembers_eq, List.map_map, List.map_map]
  rfl

section
variable {members : List (σ × Tree σ)} {m : σ × Tree σ}

theorem mem_mapMembers (f : σ → τ) (hm : m ∈ members) :
    (f m.1, m.2.map f) ∈ mapMembers f members := by
  have hmem : Prod.map f (Tree.map f) m ∈ members.map (Prod.map f (Tree.map f)) :=
    List.mem_map_of_mem hm
  rwa [mapMembers_eq]

theorem names_eq_of_member_eq (h : ∀ s, f s = g s ∨ r (f s) < r (g s))
    (hnames : ((mapMembers f members).map Prod.fst).Nodup)
    (hmember : ∀ key,
      member toNumber (mapMembers f members) key = member toNumber (mapMembers g members) key) :
    ∀ s ∈ members.map Prod.fst, f s = g s := by
  have hsubset : (members.map Prod.fst).map f ⊆ (members.map Prod.fst).map g := by
    intro key hkey
    rw [← names_map, ← isSome_member toNumber] at hkey ⊢
    rwa [← hmember key]
  rw [names_map] at hnames
  exact eq_of_subset h hnames hsubset

theorem value_eq_of_member_eq (heq : ∀ s ∈ members.map Prod.fst, f s = g s)
    (hnames : ((mapMembers f members).map Prod.fst).Nodup)
    (hmember : ∀ key,
      member toNumber (mapMembers f members) key = member toNumber (mapMembers g members) key)
    (hm : m ∈ members) : (m.2.map f).value toNumber = (m.2.map g).value toNumber := by
  have hsame : (mapMembers f members).map Prod.fst = (mapMembers g members).map Prod.fst := by
    rw [names_map, names_map, List.map_inj_left]
    exact heq
  have hname : f m.1 = g m.1 := heq m.1 (List.mem_map_of_mem hm)
  have hfirst := member_of_mem toNumber hnames (mem_mapMembers f hm)
  have hsecond := member_of_mem toNumber (hsame ▸ hnames) (mem_mapMembers g hm)
  rw [hmember, hname] at hfirst
  exact Option.some.inj (hfirst.symm.trans hsecond)

end

theorem all_of_value_eq (h : ∀ s, f s = g s ∨ r (f s) < r (g s)) {t : Tree σ}
    (hdistinct : (t.map f).Distinct)
    (hvalue : (t.map f).value toNumber = (t.map g).value toNumber) : t.All fun s => f s = g s := by
  induction t using Tree.induct with
  | scalar x => exact .scalar x
  | string s =>
    injection hvalue with hunits
    exact .string hunits
  | array items ih =>
    injection hvalue with hitems
    rw [values_eq, values_eq, mapItems_eq, mapItems_eq, List.map_map, List.map_map,
      List.map_inj_left] at hitems
    rw [Tree.map, mapItems_eq] at hdistinct
    cases hdistinct with
    | array hdistinct =>
      exact .array fun t ht => ih t ht (hdistinct _ (List.mem_map_of_mem ht)) (hitems t ht)
  | object members ih =>
    injection hvalue with hmember
    rw [Tree.map] at hdistinct
    cases hdistinct with
    | object hnames hdistinct =>
      have heq := names_eq_of_member_eq h hnames (congrFun hmember)
      refine .object (fun m hm => heq m.1 (List.mem_map_of_mem hm)) fun m hm => ?_
      exact ih m hm (hdistinct _ (mem_mapMembers f hm))
        (value_eq_of_member_eq heq hnames (congrFun hmember) hm)

end Json
