import Mathlib.Data.List.Nodup
import Mathlib.Tactic.Common

/-!
# Insertion-ordered dictionaries

A `Dict` lists its entries in the order the keys first came in, each key once; replacing a value
leaves the key where it is. Everything is read through `Dict.get?`: `get?_set`, `get?_erase` and
`get?_filter` say what each operation does to it. The last section counts the entries.
-/

namespace RagLeap

/-- In a list with each key once, what a key stands for is what is listed with it. -/
theorem lookup_eq_some_iff_mem {κ ν : Type} [BEq κ] [LawfulBEq κ] {l : List (κ × ν)}
    (h : (l.map Prod.fst).Nodup) {k : κ} {v : ν} : l.lookup k = some v ↔ (k, v) ∈ l := by
  induction l with
  | nil => simp
  | cons e l ih =>
    obtain ⟨k', v'⟩ := e
    rw [List.map_cons, List.nodup_cons] at h
    rw [List.lookup_cons, List.mem_cons]
    by_cases hk : k = k'
    · subst hk
      have hnot : (k, v) ∉ l := fun hm => h.1 (List.mem_map.2 ⟨_, hm, rfl⟩)
      simp [hnot, eq_comm]
    · rw [beq_eq_false_iff_ne.2 hk, ih h.2]
      exact ⟨.inr, fun hm => hm.resolve_left fun heq => hk (Prod.mk.inj heq).1⟩

/-- Entries in insertion order, one for each key. -/
@[ext]
structure Dict (κ ν : Type) where
  items : List (κ × ν)
  nodup : (items.map Prod.fst).Nodup

namespace Dict

variable {κ ν : Type} [DecidableEq κ]

/-- `{}`. -/
def empty : Dict κ ν := ⟨[], List.nodup_nil⟩

/-- `d.get(k)`. -/
def get? (d : Dict κ ν) (k : κ) : Option ν := d.items.lookup k

/-- `len(d)`. -/
def size (d : Dict κ ν) : ℕ := d.items.length

/-- The entries `p` keeps, in their order. -/
def filter (d : Dict κ ν) (p : κ → ν → Bool) : Dict κ ν :=
  ⟨d.items.filter fun e => p e.1 e.2, d.nodup.sublist (List.filter_sublist.map _)⟩

/-- `d.pop(k, None)`. -/
def erase (d : Dict κ ν) (k : κ) : Dict κ ν := d.filter fun k' _ => k' ≠ k

/-- `d[k] = v`. -/
def set (d : Dict κ ν) (k : κ) (v : ν) : Dict κ ν :=
  if h : k ∈ d.items.map Prod.fst then
    ⟨d.items.map fun e => if e.1 = k then (k, v) else e, by
      have : (d.items.map fun e => if e.1 = k then (k, v) else e).map Prod.fst =
          d.items.map Prod.fst := by
        rw [List.map_map]
        refine List.map_congr_left fun e _ => ?_
        by_cases he : e.1 = k <;> simp [he]
      exact this ▸ d.nodup⟩
  else
    ⟨d.items ++ [(k, v)], by
      rw [List.map_append, List.nodup_append]
      refine ⟨d.nodup, by simp, fun a ha b hb hab => h ?_⟩
      rw [List.map_singleton, List.mem_singleton] at hb
      rw [hab, hb] at ha
      exact ha⟩

/-- Drops the first entry as long as `p` holds of the number of entries and one is left. -/
def dropOldest (p : ℕ → Bool) : List (κ × ν) → List (κ × ν)
  | [] => []
  | e :: es => if p (es.length + 1) then dropOldest p es else e :: es

omit [DecidableEq κ] in
theorem dropOldest_suffix (p : ℕ → Bool) (l : List (κ × ν)) : dropOldest p l <:+ l := by
  induction l with
  | nil => exact List.suffix_refl _
  | cons e es ih =>
    unfold dropOldest
    split_ifs
    · exact ih.trans (List.suffix_cons e es)
    · exact List.suffix_refl _

/-- `while p(len(d)) and d: d.pop(next(iter(d)))`. -/
def popWhile (d : Dict κ ν) (p : ℕ → Bool) : Dict κ ν :=
  ⟨dropOldest p d.items, d.nodup.sublist ((dropOldest_suffix p d.items).sublist.map _)⟩

/-- The entries from the one of `k` on. -/
def onFrom (d : Dict κ ν) (k : κ) : List (κ × ν) := d.items.dropWhile fun e => e.1 ≠ k

theorem get?_eq_some_iff {d : Dict κ ν} {k : κ} {v : ν} :
    d.get? k = some v ↔ (k, v) ∈ d.items :=
  lookup_eq_some_iff_mem d.nodup

theorem items_set_of_none {d : Dict κ ν} {k : κ} (h : d.get? k = none) (v : ν) :
    (d.set k v).items = d.items ++ [(k, v)] := by
  have hk : k ∉ d.items.map Prod.fst := fun hk => by
    obtain ⟨⟨_, w⟩, he, rfl⟩ := List.mem_map.1 hk
    rw [get?_eq_some_iff.2 he] at h
    cases h
  rw [set, dif_neg hk]

theorem get?_filter (d : Dict κ ν) (p : κ → ν → Bool) (k : κ) :
    (d.filter p).get? k = (d.get? k).filter (p k) := by
  apply Option.ext
  intro v
  rw [get?_eq_some_iff, Option.filter_eq_some_iff, get?_eq_some_iff]
  simp [filter]

@[simp] theorem get?_empty (k : κ) : (empty : Dict κ ν).get? k = none := rfl

theorem get?_erase (d : Dict κ ν) (k k' : κ) :
    (d.erase k).get? k' = if k' = k then none else d.get? k' := by
  rw [erase, get?_filter]
  by_cases h : k' = k
  · cases d.get? k' <;> simp [Option.filter, h]
  · cases d.get? k' <;> simp [Option.filter, h]

theorem get?_set (d : Dict κ ν) (k k' : κ) (v : ν) :
    (d.set k v).get? k' = if k' = k then some v else d.get? k' := by
  apply Option.ext
  intro w
  rw [get?_eq_some_iff]
  unfold set
  split_ifs with hk h h
  · subst h
    obtain ⟨e, he, rfl⟩ := List.mem_map.1 hk
    constructor
    · intro hm
      obtain ⟨e', -, he'⟩ := List.mem_map.1 hm
      split_ifs at he' with h'
      · exact congrArg some (Prod.mk.inj he').2
      · exact absurd (congrArg Prod.fst he') h'
    · rintro hw
      cases hw
      exact List.mem_map.2 ⟨e, he, by simp⟩
  · rw [get?_eq_some_iff, List.mem_map]
    constructor
    · rintro ⟨e, he, he'⟩
      split_ifs at he' with h'
      · exact absurd (congrArg Prod.fst he').symm h
      · exact he' ▸ he
    · exact fun hm => ⟨_, hm, if_neg h⟩
  · subst h
    have hnot : (k', w) ∉ d.items := fun hm => hk (List.mem_map.2 ⟨_, hm, rfl⟩)
    simp [hnot, eq_comm]
  · rw [get?_eq_some_iff]
    simp [h]

/-! ## Dictionaries of pairs -/

/-- `dict(pairs)`: the last of two pairs with one key counts, at the place of the first. -/
def ofPairs (pairs : List (κ × ν)) : Dict κ ν := pairs.foldl (fun d e => d.set e.1 e.2) empty

theorem mem_of_mem_set {d : Dict κ ν} {k : κ} {v : ν} {m : κ × ν} (h : m ∈ (d.set k v).items) :
    m ∈ d.items ∨ m = (k, v) := by
  have hget : (d.set k v).get? m.1 = some m.2 := get?_eq_some_iff.2 h
  rw [get?_set] at hget
  split_ifs at hget with hk
  · exact .inr (Prod.ext hk (Option.some.inj hget).symm)
  · exact .inl (get?_eq_some_iff.1 hget)

theorem mem_of_mem_ofPairs {pairs : List (κ × ν)} {m : κ × ν} (h : m ∈ (ofPairs pairs).items) :
    m ∈ pairs := by
  have hfold : ∀ d : Dict κ ν,
      m ∈ (pairs.foldl (fun d e => d.set e.1 e.2) d).items → m ∈ d.items ∨ m ∈ pairs := by
    clear h
    intro d
    induction pairs generalizing d with
    | nil => exact .inl
    | cons e pairs ih =>
      intro hm
      rcases ih (d.set e.1 e.2) hm with hset | htail
      · rcases mem_of_mem_set hset with hd | rfl
        · exact .inl hd
        · exact .inr List.mem_cons_self
      · exact .inr (List.mem_cons_of_mem e htail)
  rcases hfold empty h with hempty | hm
  · exact absurd hempty List.not_mem_nil
  · exact hm

/-- A new key comes last, an old one stays where it is. -/
theorem map_fst_set (d : Dict κ ν) (k : κ) (v : ν) : (d.set k v).items.map Prod.fst =
    if k ∈ d.items.map Prod.fst then d.items.map Prod.fst else d.items.map Prod.fst ++ [k] := by
  unfold set
  split_ifs with h
  · rw [List.map_map]
    refine List.map_congr_left fun e _ => ?_
    by_cases he : e.1 = k <;> simp [he]
  · simp

theorem mem_keys_set {d : Dict κ ν} {k k' : κ} {v : ν} :
    k' ∈ (d.set k v).items.map Prod.fst ↔ k' ∈ d.items.map Prod.fst ∨ k' = k := by
  rw [map_fst_set]
  split_ifs with h
  · exact ⟨.inl, fun hk => hk.elim id fun heq => heq ▸ h⟩
  · simp

theorem mem_keys_ofPairs {pairs : List (κ × ν)} {k : κ} :
    k ∈ (ofPairs pairs).items.map Prod.fst ↔ k ∈ pairs.map Prod.fst := by
  have hfold : ∀ d : Dict κ ν, k ∈ (pairs.foldl (fun d e => d.set e.1 e.2) d).items.map Prod.fst ↔
      k ∈ d.items.map Prod.fst ∨ k ∈ pairs.map Prod.fst := by
    induction pairs with
    | nil => simp
    | cons e pairs ih =>
      intro d
      rw [List.foldl_cons, ih, mem_keys_set, List.map_cons, List.mem_cons, or_assoc]
  rw [ofPairs, hfold]
  simp [empty]

/-- Pairs with a key each are the entries. -/
theorem items_ofPairs {pairs : List (κ × ν)} (h : (pairs.map Prod.fst).Nodup) :
    (ofPairs pairs).items = pairs := by
  have hfold : ∀ d : Dict κ ν, (∀ m ∈ pairs, d.get? m.1 = none) →
      (pairs.foldl (fun d e => d.set e.1 e.2) d).items = d.items ++ pairs := by
    induction pairs with
    | nil => simp
    | cons e pairs ih =>
      intro d hd
      rw [List.map_cons, List.nodup_cons] at h
      have hnone : ∀ m ∈ pairs, (d.set e.1 e.2).get? m.1 = none := by
        intro m hm
        have hne : m.1 ≠ e.1 := fun he => h.1 (he ▸ List.mem_map_of_mem hm)
        rw [get?_set, if_neg hne]
        exact hd m (List.mem_cons_of_mem e hm)
      rw [List.foldl_cons, ih h.2 _ hnone, items_set_of_none (hd e List.mem_cons_self),
        List.append_assoc]
      rfl
  exact hfold empty fun _ _ => rfl

/-- Popping from the front stops before an entry at which `p` is false. -/
theorem get?_popWhile (d : Dict κ ν) {p : ℕ → Bool} {k : κ}
    (h : p (d.onFrom k).length = false) : (d.popWhile p).get? k = d.get? k := by
  obtain ⟨items, hn⟩ := d
  change (dropOldest p items).lookup k = items.lookup k
  replace h : p (items.dropWhile fun e => e.1 ≠ k).length = false := h
  clear hn
  induction items with
  | nil => rfl
  | cons e es ih =>
    unfold dropOldest
    by_cases hk : e.1 = k
    · rw [List.dropWhile_cons_of_neg (by simpa using hk), List.length_cons] at h
      rw [h, if_neg Bool.false_ne_true]
    · rw [List.dropWhile_cons_of_pos (by simpa using hk)] at h
      split_ifs
      · rw [ih h, List.lookup_cons, show (k == e.1) = false by simpa using Ne.symm hk]
      · rfl

theorem get?_popWhile_of_none {d : Dict κ ν} {p : ℕ → Bool} {k : κ} (h : d.get? k = none) :
    (d.popWhile p).get? k = none := by
  rw [Option.eq_none_iff_forall_ne_some] at h ⊢
  exact fun v hv => h v (get?_eq_some_iff.2
    ((dropOldest_suffix p d.items).subset (get?_eq_some_iff.1 hv)))

/-! ## Sizes -/

omit [DecidableEq κ] in
theorem size_filter_le (d : Dict κ ν) (p : κ → ν → Bool) : (d.filter p).size ≤ d.size :=
  List.length_filter_le _ _

theorem size_erase_le (d : Dict κ ν) (k : κ) : (d.erase k).size ≤ d.size := d.size_filter_le _

theorem size_erase_lt {d : Dict κ ν} {k : κ} {v : ν} (h : d.get? k = some v) :
    (d.erase k).size < d.size := by
  apply List.length_filter_lt_length_iff_exists.2
  exact ⟨(k, v), get?_eq_some_iff.1 h, by simp⟩

theorem size_set_of_none {d : Dict κ ν} {k : κ} (h : d.get? k = none) (v : ν) :
    (d.set k v).size = d.size + 1 := by
  unfold size
  rw [items_set_of_none h, List.length_append, List.length_singleton]

theorem size_set_of_some {d : Dict κ ν} {k : κ} {w : ν} (h : d.get? k = some w) (v : ν) :
    (d.set k v).size = d.size := by
  have hk : k ∈ d.items.map Prod.fst := List.mem_map_of_mem (get?_eq_some_iff.1 h)
  unfold size
  rw [set, dif_pos hk, List.length_map]

theorem size_set_le (d : Dict κ ν) (k : κ) (v : ν) : (d.set k v).size ≤ d.size + 1 := by
  cases h : d.get? k with
  | none => exact Nat.le_of_eq (size_set_of_none h v)
  | some w => exact Nat.le_succ_of_le (Nat.le_of_eq (size_set_of_some h v))

omit [DecidableEq κ] in
theorem size_popWhile_le (d : Dict κ ν) (p : ℕ → Bool) : (d.popWhile p).size ≤ d.size :=
  (dropOldest_suffix p d.items).length_le

omit [DecidableEq κ] in
/-- Popping stops where `p` is false or nothing is left. -/
theorem popWhile_stops (d : Dict κ ν) (p : ℕ → Bool) :
    (d.popWhile p).items = [] ∨ p (d.popWhile p).size = false := by
  obtain ⟨items, hn⟩ := d
  change dropOldest p items = [] ∨ p (dropOldest p items).length = false
  clear hn
  induction items with
  | nil => exact .inl rfl
  | cons e es ih =>
    unfold dropOldest
    split_ifs with h
    · exact ih
    · exact .inr (by simpa using h)

end Dict

end RagLeap
