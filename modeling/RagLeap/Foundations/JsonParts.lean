import Mathlib.Algebra.Order.BigOperators.Group.List
import RagLeap.Foundations.JsonDumps

/-!
# The parts of a JSON value

A value as the list of its names, strings and other leaves (`parts`), its text with the strings
written in any way (`spell`), and the value with its strings changed but not its names
(`mapStrings`). What is added up over the parts (`total`) does not grow when objects become
dictionaries (`total_collapse_le`).
-/

namespace RagLeap

namespace JsonText

variable {F : Type}

/-- A leaf of a value or a name in it. -/
inductive Leaf (F : Type)
  | atom (a : Atom F)
  | name (k : PyStr)
  | str (s : PyStr)

/-- A part with `g` on it if it is a string. -/
def Leaf.map (g : PyStr → PyStr) : Leaf F → Leaf F
  | .str s => .str (g s)
  | p => p

/-- A part with `f` on its text. -/
def Leaf.mapText (f : PyStr → PyStr) : Leaf F → Leaf F
  | .atom a => .atom a
  | .name k => .name (f k)
  | .str s => .str (f s)

/-- The string that a part is. -/
def Leaf.text? : Leaf F → Option PyStr
  | .atom _ => none
  | .name s | .str s => some s

namespace Value

mutual

/-- The parts of a value in the order of its text. -/
def parts : Value F → List (Leaf F)
  | atom a => [.atom a]
  | str s => [.str s]
  | arr items => partsItems items
  | obj members => partsMembers members

def partsItems : List (Value F) → List (Leaf F)
  | [] => []
  | t :: items => parts t ++ partsItems items

def partsMembers : List (PyStr × Value F) → List (Leaf F)
  | [] => []
  | (k, t) :: members => .name k :: parts t ++ partsMembers members

end

theorem parts_arr (items : List (Value F)) : parts (.arr items) = items.flatMap parts := by
  rw [parts]
  induction items with
  | nil => rfl
  | cons t items ih => rw [partsItems, List.flatMap_cons, ih]

theorem parts_obj (members : List (PyStr × Value F)) :
    parts (.obj members) = members.flatMap fun m => .name m.1 :: parts m.2 := by
  rw [parts]
  induction members with
  | nil => rfl
  | cons m members ih => rw [partsMembers, List.flatMap_cons, ih]

theorem parts_subset_arr {t : Value F} {items : List (Value F)} (ht : t ∈ items) :
    parts t ⊆ parts (.arr items) := fun p hp => by
  rw [parts_arr]
  exact List.mem_flatMap.2 ⟨t, ht, hp⟩

theorem parts_subset_obj {m : PyStr × Value F} {members : List (PyStr × Value F)}
    (hm : m ∈ members) : Leaf.name m.1 :: parts m.2 ⊆ parts (.obj members) := fun p hp => by
  rw [parts_obj]
  exact List.mem_flatMap.2 ⟨m, hm, hp⟩

theorem parts_map {f : PyStr → PyStr} (t : Value F) :
    parts (map f id t) = (parts t).map (Leaf.mapText f) := by
  induction t using ind with
  | atom a => rw [map_atom]; rfl
  | str s => rw [map_str]; rfl
  | arr items ih =>
    rw [map_arr, parts_arr, parts_arr, List.flatMap_map, List.map_flatMap]
    exact List.flatMap_congr ih
  | obj members ih =>
    rw [map_obj, parts_obj, parts_obj, id, List.flatMap_map, List.map_flatMap]
    refine List.flatMap_congr fun m hm => ?_
    rw [List.map_cons, ih m hm]
    rfl

mutual

/-- The value with `g` on its strings; its names stay. -/
def mapStrings (g : PyStr → PyStr) : Value F → Value F
  | atom a => atom a
  | str s => str (g s)
  | arr items => arr (mapStringsItems g items)
  | obj members => obj (mapStringsMembers g members)

def mapStringsItems (g : PyStr → PyStr) : List (Value F) → List (Value F)
  | [] => []
  | t :: items => mapStrings g t :: mapStringsItems g items

def mapStringsMembers (g : PyStr → PyStr) : List (PyStr × Value F) → List (PyStr × Value F)
  | [] => []
  | (k, t) :: members => (k, mapStrings g t) :: mapStringsMembers g members

end

variable {g : PyStr → PyStr}

theorem mapStrings_arr (items : List (Value F)) :
    mapStrings g (.arr items) = .arr (items.map (mapStrings g)) := by
  rw [mapStrings]
  congr 1
  induction items with
  | nil => rfl
  | cons t items ih => rw [mapStringsItems, List.map_cons, ih]

theorem mapStrings_obj (members : List (PyStr × Value F)) :
    mapStrings g (.obj members) = .obj (members.map fun m => (m.1, mapStrings g m.2)) := by
  rw [mapStrings]
  congr 1
  induction members with
  | nil => rfl
  | cons m members ih => rw [mapStringsMembers, List.map_cons, ih]

theorem parts_mapStrings (t : Value F) : parts (mapStrings g t) = (parts t).map (Leaf.map g) := by
  induction t using ind with
  | atom a => rfl
  | str s => rfl
  | arr items ih =>
    rw [mapStrings_arr, parts_arr, parts_arr, List.flatMap_map, List.map_flatMap]
    exact List.flatMap_congr ih
  | obj members ih =>
    rw [mapStrings_obj, parts_obj, parts_obj, List.flatMap_map, List.map_flatMap]
    refine List.flatMap_congr fun m hm => ?_
    rw [List.map_cons, ih m hm]
    rfl

/-- Strings that stay as they are. -/
theorem mapStrings_congr {g' : PyStr → PyStr} {t : Value F}
    (h : ∀ s, Leaf.str s ∈ parts t → g s = g' s) : mapStrings g t = mapStrings g' t := by
  induction t using ind with
  | atom a => rfl
  | str s => exact congrArg str (h s (List.mem_singleton.2 rfl))
  | arr items ih =>
    rw [mapStrings_arr, mapStrings_arr]
    exact congrArg arr (List.map_congr_left fun t ht =>
      ih t ht fun s hs => h s (parts_subset_arr ht hs))
  | obj members ih =>
    rw [mapStrings_obj, mapStrings_obj]
    exact congrArg obj (List.map_congr_left fun m hm => Prod.ext rfl
      (ih m hm fun s hs => h s (parts_subset_obj hm (List.mem_cons_of_mem _ hs))))

/-- Two ways to change the strings of a value and its names. -/
theorem map_eq_mapStrings {f : PyStr → PyStr} {t : Value F}
    (hname : ∀ k, Leaf.name k ∈ parts t → f k = k)
    (hstr : ∀ s, Leaf.str s ∈ parts t → f s = g s) : map f id t = mapStrings g t := by
  induction t using ind with
  | atom a => rw [map_atom, mapStrings]
  | str s => rw [map_str, mapStrings, hstr s (List.mem_singleton.2 rfl)]
  | arr items ih =>
    rw [map_arr, mapStrings_arr]
    refine congrArg arr (List.map_congr_left fun t ht => ?_)
    have hsub := parts_subset_arr ht
    exact ih t ht (fun k hk => hname k (hsub hk)) fun s hs => hstr s (hsub hs)
  | obj members ih =>
    rw [map_obj, mapStrings_obj, id]
    refine congrArg obj (List.map_congr_left fun m hm => ?_)
    have hsub := parts_subset_obj hm
    rw [hname m.1 (hsub List.mem_cons_self), ih m hm
      (fun k hk => hname k (hsub (List.mem_cons_of_mem _ hk)))
      fun s hs => hstr s (hsub (List.mem_cons_of_mem _ hs))]

theorem distinct_mapStrings {t : Value F} (h : Distinct t) : Distinct (mapStrings g t) := by
  induction h with
  | atom a => exact .atom a
  | str h => exact .str trivial
  | arr _ ih =>
    rw [mapStrings_arr]
    refine .arr fun t ht => ?_
    obtain ⟨t', ht', rfl⟩ := List.mem_map.1 ht
    exact ih t' ht'
  | obj hkeys _ _ ih =>
    rw [mapStrings_obj]
    refine .obj ?_ (fun _ _ => trivial) fun m hm => ?_
    · rw [List.map_map]
      exact hkeys
    · obtain ⟨m', hm', rfl⟩ := List.mem_map.1 hm
      exact ih m' hm'

/-! ## Adding up over the parts -/

/-- The sum of a number for each part. -/
def total (φ : Leaf F → ℕ) (t : Value F) : ℕ := ((parts t).map φ).sum

variable {φ ψ : Leaf F → ℕ}

theorem sum_flatMap {α : Type} (l : List α) (f : α → List ℕ) :
    (l.flatMap f).sum = (l.map fun a => (f a).sum).sum := by
  rw [List.flatMap_def, List.sum_flatten, List.map_map]
  rfl

theorem total_arr (items : List (Value F)) :
    total φ (.arr items) = (items.map (total φ)).sum := by
  rw [total, parts_arr, List.map_flatMap, sum_flatMap]
  rfl

theorem total_obj (members : List (PyStr × Value F)) :
    total φ (.obj members) = (members.map fun m => φ (.name m.1) + total φ m.2).sum := by
  rw [total, parts_obj, List.map_flatMap, sum_flatMap]
  rfl

theorem total_mapStrings (t : Value F) :
    total φ (mapStrings g t) = total (fun p => φ (p.map g)) t := by
  rw [total, parts_mapStrings, List.map_map]
  rfl

theorem total_map {f : PyStr → PyStr} (t : Value F) :
    total φ (map f id t) = total (fun p => φ (p.mapText f)) t := by
  rw [total, parts_map, List.map_map]
  rfl

theorem total_le {t : Value F} (h : ∀ p ∈ parts t, φ p ≤ ψ p) : total φ t ≤ total ψ t :=
  List.sum_le_sum h

theorem total_lt {t : Value F} (h : ∀ p ∈ parts t, φ p ≤ ψ p) {p : Leaf F} (hp : p ∈ parts t)
    (hlt : φ p < ψ p) : total φ t < total ψ t :=
  List.sum_lt_sum _ _ h ⟨p, hp, hlt⟩

/-- A dictionary holds no more than its pairs. -/
theorem sum_dictOf_le (φ : PyStr × Value F → ℕ) (members : List (PyStr × Value F)) :
    ((dictOf members).map φ).sum ≤ (members.map φ).sum := by
  have hreplace (k : PyStr) (t : Value F) (items : List (PyStr × Value F))
      (hnodup : (items.map Prod.fst).Nodup) :
      ((items.map fun m => if m.1 = k then (k, t) else m).map φ).sum ≤
        (items.map φ).sum + φ (k, t) := by
    induction items with
    | nil => exact Nat.zero_le _
    | cons m items ih =>
      obtain ⟨hnot, hnodup⟩ := List.nodup_cons.1 hnodup
      simp only [List.map_cons, List.sum_cons]
      by_cases hk : m.1 = k
      · have hrest : items.map (fun m => if m.1 = k then (k, t) else m) = items := by
          refine (List.map_congr_left fun m' hm' => if_neg fun hk' => hnot ?_).trans
            (List.map_id' items)
          rw [hk, ← hk']
          exact List.mem_map_of_mem hm'
        rw [if_pos hk, hrest]
        omega
      · have hle := ih hnodup
        rw [if_neg hk]
        omega
  have hset (d : Dict PyStr (Value F)) (k : PyStr) (t : Value F) :
      ((d.set k t).items.map φ).sum ≤ (d.items.map φ).sum + φ (k, t) := by
    rw [Dict.set]
    split
    · exact hreplace k t d.items d.nodup
    · rw [List.map_append, List.sum_append, List.map_singleton, List.sum_singleton]
  have hfold : ∀ d : Dict PyStr (Value F),
      ((members.foldl (fun d m => d.set m.1 m.2) d).items.map φ).sum ≤
        (d.items.map φ).sum + (members.map φ).sum := by
    induction members with
    | nil => exact fun d => le_rfl
    | cons m members ih =>
      intro d
      rw [List.foldl_cons, List.map_cons, List.sum_cons]
      have hrest := ih (d.set m.1 m.2)
      have hone := hset d m.1 m.2
      calc _ ≤ ((d.set m.1 m.2).items.map φ).sum + (members.map φ).sum := hrest
        _ ≤ (d.items.map φ).sum + φ m + (members.map φ).sum := Nat.add_le_add_right hone _
        _ = _ := Nat.add_assoc ..
  exact (hfold .empty).trans_eq (Nat.zero_add _)

/-- **Making objects dictionaries takes parts away only.** -/
theorem total_collapse_le (t : Value F) : total φ (collapse t) ≤ total φ t := by
  induction t using ind with
  | atom a => rw [collapse, map_atom]
  | str s => rw [collapse, map_str, id]
  | arr items ih =>
    rw [collapse, map_arr, total_arr, total_arr, List.map_map]
    exact List.sum_le_sum ih
  | obj members ih =>
    rw [collapse, map_obj, total_obj, total_obj]
    refine (sum_dictOf_le _ _).trans ?_
    rw [List.map_map]
    exact List.sum_le_sum fun m hm => Nat.add_le_add_left (ih m hm) _

end Value

/-! ## Texts of a value -/

open PyStr Value

variable (fl : Floats F)

mutual

/-- The text of a value that `json.dumps` writes if it writes its strings as `q` does. -/
def spell (q : PyStr → PyStr) : Value F → PyStr
  | .atom a => atomText fl a
  | .str s => q s
  | .arr items => ch '[' :: commaSep (spellItems q items) ++ [ch ']']
  | .obj members => ch '\x7b' :: commaSep (spellMembers q members) ++ [ch '\x7d']

def spellItems (q : PyStr → PyStr) : List (Value F) → List PyStr
  | [] => []
  | t :: items => spell q t :: spellItems q items

def spellMembers (q : PyStr → PyStr) : List (PyStr × Value F) → List PyStr
  | [] => []
  | (k, t) :: members => (q k ++ ch ':' :: ch ' ' :: spell q t) :: spellMembers q members

end

variable {q : PyStr → PyStr}

theorem spell_arr (items : List (Value F)) : spell fl q (.arr items) =
    ch '[' :: commaSep (items.map (spell fl q)) ++ [ch ']'] := by
  rw [spell]
  congr 3
  induction items with
  | nil => rfl
  | cons t items ih => rw [spellItems, List.map_cons, ih]

theorem spell_obj (members : List (PyStr × Value F)) : spell fl q (.obj members) =
    ch '\x7b' :: commaSep (members.map fun m => q m.1 ++ ch ':' :: ch ' ' :: spell fl q m.2) ++
      [ch '\x7d'] := by
  rw [spell]
  congr 3
  induction members with
  | nil => rfl
  | cons m members ih => rw [spellMembers, List.map_cons, ih]

theorem dumps_eq_spell (t : Value F) : dumps fl t = spell fl quote t := by
  induction t using Value.ind with
  | atom a => rfl
  | str s => rfl
  | arr items ih =>
    rw [dumps, dumpsItems_eq, spell_arr, List.map_congr_left ih]
  | obj members ih =>
    have hsame : ∀ m ∈ members, quote m.1 ++ ch ':' :: ch ' ' :: dumps fl m.2 =
        quote m.1 ++ ch ':' :: ch ' ' :: spell fl quote m.2 := fun m hm => by rw [ih m hm]
    rw [dumps, dumpsMembers_eq, spell_obj, List.map_congr_left hsame]

variable {fl}

/-- A text whose strings are read is read. -/
theorem lexes_spell {f : PyStr → PyStr} {t : Value F}
    (h : ∀ p ∈ parts t, ∀ s ∈ p.text?, Lexes fl (q s) [.str (f s)]) :
    Lexes fl (spell fl q t) (tokens (t.map f id)) := by
  induction t using Value.ind with
  | atom a =>
    rw [Value.map_atom, spell, tokens]
    exact fun rest hrest => lexFrom_atomText fl a hrest
  | str s =>
    rw [Value.map_str, spell, tokens]
    exact h (.str s) (List.mem_singleton.2 rfl) s rfl
  | arr items ih =>
    have hitems := Lexes.commaSep fun t ht =>
      ih t ht fun p hp => h p (parts_subset_arr ht hp)
    rw [Value.map_arr, spell_arr, tokens, tokensItems_eq, List.map_map]
    exact (hitems.punct (c := ch '[') rfl).close rfl (by decide)
  | obj members ih =>
    have hmembers := Lexes.commaSep fun m (hm : m ∈ members) => by
      have hsub := parts_subset_obj hm
      have hname := h (.name m.1) (hsub List.mem_cons_self) m.1 rfl
      have hvalue := ih m hm fun p hp => h p (hsub (List.mem_cons_of_mem _ hp))
      exact hname.append (by decide) (hvalue.space.punct (c := ch ':') rfl)
    rw [Value.map_obj, spell_obj, tokens, tokensMembers_eq, id, List.map_map]
    exact (hmembers.punct (c := ch '\x7b') rfl).close rfl (by decide)

theorem parse_spell {f : PyStr → PyStr} {t : Value F}
    (h : ∀ p ∈ parts t, ∀ s ∈ p.text?, Lexes fl (q s) [.str (f s)]) :
    parse fl (spell fl q t) = some (t.map f id).collapse := by
  have hlex : lexFrom fl .between (spell fl q t ++ []) = _ := lexes_spell h [] endsWord_nil
  rw [List.append_nil] at hlex
  rw [parse, hlex]
  simp [lexFrom, finish, ofTokens_tokens]

end JsonText

end RagLeap
