import Mathlib.Data.List.Dedup
import Mathlib.Data.List.DropRight
import RagLeap.Foundations.Dict

/-!
# Least recently used first

A bounded cache on an ordered dictionary: a key that is read or written moves to the end, and the
first entry goes when there are too many. `MostRecent` relates the keys the cache holds to the
keys that were used: they are the last ones of them, each at its last use. `MostRecent.hit` and
`MostRecent.put` keep it.
-/

namespace RagLeap

namespace Dict

variable {κ ν : Type}

/-- The keys, in their order. -/
def keys (d : Dict κ ν) : List κ := d.items.map Prod.fst

theorem length_keys (d : Dict κ ν) : d.keys.length = d.size := List.length_map _

/-- `d.popitem(last=False)`, the entry apart. -/
def popFirst (d : Dict κ ν) : Dict κ ν :=
  ⟨d.items.tail, d.nodup.sublist ((List.tail_sublist _).map _)⟩

theorem keys_popFirst (d : Dict κ ν) : d.popFirst.keys = d.keys.tail := List.map_tail

variable [DecidableEq κ]

/-- `d.move_to_end(k)`. -/
def moveToEnd (d : Dict κ ν) (k : κ) : Dict κ ν :=
  match d.get? k with
  | some v => (d.erase k).set k v
  | none => d

theorem mem_keys {d : Dict κ ν} {k : κ} : k ∈ d.keys ↔ d.get? k ≠ none := by
  rw [Option.ne_none_iff_exists']
  simp only [keys, List.mem_map, Prod.exists, exists_and_right, exists_eq_right,
    get?_eq_some_iff]

theorem keys_erase (d : Dict κ ν) (k : κ) : (d.erase k).keys = d.keys.erase k := by
  have hnodup : d.keys.Nodup := d.nodup
  rw [hnodup.erase_eq_filter, keys, keys, List.filter_map]
  congr 1
  exact List.filter_congr fun e _ => by by_cases h : e.1 = k <;> simp [h]

theorem get?_erase_self (d : Dict κ ν) (k : κ) : (d.erase k).get? k = none := by
  rw [get?_erase, if_pos rfl]

theorem keys_erase_set (d : Dict κ ν) (k : κ) (v : ν) :
    ((d.erase k).set k v).keys = d.keys.erase k ++ [k] := by
  rw [keys, items_set_of_none (d.get?_erase_self k), List.map_append, ← keys_erase]
  rfl

theorem keys_moveToEnd {d : Dict κ ν} {k : κ} {v : ν} (h : d.get? k = some v) :
    (d.moveToEnd k).keys = d.keys.erase k ++ [k] := by
  simp only [moveToEnd, h]
  exact d.keys_erase_set k v

theorem get?_moveToEnd (d : Dict κ ν) (k k' : κ) : (d.moveToEnd k).get? k' = d.get? k' := by
  unfold moveToEnd
  cases h : d.get? k with
  | none => rfl
  | some v =>
    dsimp only
    rw [get?_set, get?_erase]
    split_ifs with hk
    · rw [hk, h]
    · rfl

theorem keys_set (d : Dict κ ν) (k : κ) (v : ν) :
    (d.set k v).keys.erase k = d.keys.erase k := by
  cases h : d.get? k with
  | none =>
    have hk : k ∉ d.keys := fun hk => mem_keys.1 hk h
    rw [keys, items_set_of_none h, List.map_append, List.map_singleton, ← keys,
      List.erase_append_right _ hk]
    simp [List.erase_of_not_mem hk]
  | some w =>
    have hk : k ∈ d.items.map Prod.fst := mem_keys.2 (by simp [h])
    unfold keys
    rw [set, dif_pos hk, List.map_map]
    congr 1
    exact List.map_congr_left fun e _ => by by_cases he : e.1 = k <;> simp [he]

theorem get?_of_get?_popFirst {d : Dict κ ν} {k : κ} {v : ν} (h : d.popFirst.get? k = some v) :
    d.get? k = some v :=
  get?_eq_some_iff.2 (List.mem_of_mem_tail (get?_eq_some_iff.1 h))

/-! ## The bounded cache -/

/-- `d[k] = v`, moved to the end, and the first entry out if there are more than `max`. -/
def put (d : Dict κ ν) (max : ℤ) (k : κ) (v : ν) : Dict κ ν :=
  let d := (d.set k v).moveToEnd k
  if (d.size : ℤ) > max then d.popFirst else d

theorem keys_put (d : Dict κ ν) (max : ℤ) (k : κ) (v : ν) :
    (d.put max k v).keys =
      if ((d.keys.erase k ++ [k]).length : ℤ) > max then (d.keys.erase k ++ [k]).tail
      else d.keys.erase k ++ [k] := by
  have hget : (d.set k v).get? k = some v := by rw [get?_set, if_pos rfl]
  have hkeys : ((d.set k v).moveToEnd k).keys = d.keys.erase k ++ [k] := by
    rw [keys_moveToEnd hget, keys_set]
  simp only [put, ← length_keys, hkeys]
  split_ifs
  · rw [keys_popFirst, hkeys]
  · exact hkeys

theorem get?_of_get?_put {d : Dict κ ν} {max : ℤ} {k k' : κ} {v w : ν}
    (h : (d.put max k v).get? k' = some w) : k' = k ∧ w = v ∨ k' ≠ k ∧ d.get? k' = some w := by
  have hget : ((d.set k v).moveToEnd k).get? k' = some w := by
    unfold put at h
    dsimp only at h
    split_ifs at h
    · exact get?_of_get?_popFirst h
    · exact h
  rw [get?_moveToEnd, get?_set] at hget
  split_ifs at hget with hk
  · exact .inl ⟨hk, (Option.some.inj hget).symm⟩
  · exact .inr ⟨hk, hget⟩

/-- An entry that fits in is there, and no other changes. -/
theorem get?_put_of_le {d : Dict κ ν} {max : ℤ} {k : κ}
    (h : ((d.keys.erase k).length : ℤ) + 1 ≤ max) (v : ν) (k' : κ) :
    (d.put max k v).get? k' = if k' = k then some v else d.get? k' := by
  have hget : (d.set k v).get? k = some v := by rw [get?_set, if_pos rfl]
  have hsize : ((d.set k v).moveToEnd k).size = (d.keys.erase k).length + 1 := by
    rw [← length_keys, keys_moveToEnd hget, keys_set, List.length_append, List.length_singleton]
  unfold put
  dsimp only
  rw [hsize, if_neg (by push_cast; omega), get?_moveToEnd, get?_set]

/-! ## Recency -/

/-- The keys used, each at its last use. -/
theorem dedup_concat (uses : List κ) (k : κ) :
    (uses ++ [k]).dedup = uses.dedup.erase k ++ [k] := by
  induction uses with
  | nil => simp
  | cons a uses ih =>
    rw [List.cons_append, List.dedup_cons, List.dedup_cons]
    by_cases ha : a ∈ uses
    · rw [if_pos (List.mem_append_left _ ha), if_pos ha, ih]
    · rw [if_neg ha]
      by_cases hak : a = k
      · subst hak
        have hnot : a ∉ uses.dedup := mt List.mem_dedup.1 ha
        rw [if_pos (by simp), ih, List.erase_cons_head, List.erase_of_not_mem hnot]
      · rw [if_neg (by simp [ha, hak]), ih, List.erase_cons_tail (by simpa using hak)]
        rfl

/-- The `n` keys used last, or all that were, the one used last at the end. -/
structure MostRecent (n : ℕ) (uses keys : List κ) : Prop where
  length_le : keys.length ≤ n
  recent : ∃ old, uses.dedup = old ++ keys ∧ (old ≠ [] → keys.length = n)

namespace MostRecent

variable {n : ℕ} {uses keys : List κ} {k : κ}

theorem nil (n : ℕ) : MostRecent n ([] : List κ) [] :=
  ⟨Nat.zero_le n, [], rfl, fun h => absurd rfl h⟩

theorem eq_rtake (h : MostRecent n uses keys) : keys = uses.dedup.rtake n := by
  obtain ⟨old, heq, hfull⟩ := h.recent
  rw [heq, List.rtake, List.length_append]
  have hle := h.length_le
  rcases eq_or_ne old [] with rfl | hne
  · rw [List.length_nil, Nat.zero_add, Nat.sub_eq_zero_of_le hle]
    rfl
  · rw [hfull hne, Nat.add_sub_cancel, List.drop_left]

/-- A key that is held is used again. -/
theorem hit (h : MostRecent n uses keys) (hk : k ∈ keys) :
    MostRecent n (uses ++ [k]) (keys.erase k ++ [k]) := by
  obtain ⟨old, heq, hfull⟩ := h.recent
  have hnodup : (old ++ keys).Nodup := heq ▸ List.nodup_dedup uses
  have hold : k ∉ old := fun ho => (List.nodup_append.1 hnodup).2.2 k ho k hk rfl
  have hlen : (keys.erase k ++ [k]).length = keys.length := by
    have hpos := List.length_pos_of_mem hk
    rw [List.length_append, List.length_erase_of_mem hk, List.length_singleton]
    omega
  refine ⟨hlen.trans_le h.length_le, old, ?_, fun hne => hlen.trans (hfull hne)⟩
  rw [dedup_concat, heq, List.erase_append_right _ hold, List.append_assoc]

/-- A key that is not held comes in while there is room. -/
theorem insert (h : MostRecent n uses keys) (hk : k ∉ keys) (hlt : keys.length < n) :
    MostRecent n (uses ++ [k]) (keys ++ [k]) := by
  obtain ⟨old, heq, hfull⟩ := h.recent
  obtain rfl : old = [] := by
    by_contra hne
    have := hfull hne
    omega
  have hlen : (keys ++ [k]).length ≤ n := by simpa using Nat.succ_le_of_lt hlt
  refine ⟨hlen, [], ?_, fun hne => absurd rfl hne⟩
  rw [dedup_concat, heq]
  exact congrArg (· ++ [k]) (List.erase_of_not_mem hk)

/-- A key that is not held takes the place of the one used least recently. -/
theorem evict (h : MostRecent n uses keys) (hk : k ∉ keys) (hfull : keys.length = n) :
    MostRecent n (uses ++ [k]) (keys ++ [k]).tail := by
  obtain ⟨old, heq, -⟩ := h.recent
  have hlen : (keys ++ [k]).tail.length = n := by simp [hfull]
  have hsplit : ∃ first, keys ++ [k] = first ++ (keys ++ [k]).tail := by
    cases keys with
    | nil => exact ⟨[k], rfl⟩
    | cons a keys => exact ⟨[a], rfl⟩
  obtain ⟨first, hfirst⟩ := hsplit
  refine ⟨hlen.le, old.erase k ++ first, ?_, fun _ => hlen⟩
  rw [dedup_concat, heq, List.append_assoc, ← hfirst, ← List.append_assoc]
  congr 1
  by_cases hold : k ∈ old
  · exact List.erase_append_left _ hold
  · rw [List.erase_append_right _ hold, List.erase_of_not_mem hk, List.erase_of_not_mem hold]

end MostRecent

/-- **Writing an entry keeps the most recent keys, each at its last use.** -/
theorem MostRecent.put {d : Dict κ ν} {max : ℤ} {uses : List κ}
    (h : MostRecent max.toNat uses d.keys) (k : κ) (v : ν) :
    MostRecent max.toNat (uses ++ [k]) (d.put max k v).keys := by
  have hle := h.length_le
  rw [keys_put]
  by_cases hk : k ∈ d.keys
  · have hhit := h.hit hk
    have hle' := hhit.length_le
    have hlen : (d.keys.erase k ++ [k]).length = (d.keys.erase k).length + 1 := by simp
    rw [if_neg (by omega)]
    exact hhit
  · rw [List.erase_of_not_mem hk]
    have hlen : (d.keys ++ [k]).length = d.keys.length + 1 := by simp
    split_ifs with hmax
    · exact h.evict hk (by omega)
    · exact h.insert hk (by omega)

/-- Reading an entry keeps the most recent keys. -/
theorem MostRecent.moveToEnd {d : Dict κ ν} {n : ℕ} {uses : List κ}
    (h : MostRecent n uses d.keys) {k : κ} {v : ν} (hk : d.get? k = some v) :
    MostRecent n (uses ++ [k]) (d.moveToEnd k).keys := by
  rw [keys_moveToEnd hk]
  exact h.hit (mem_keys.2 (by simp [hk]))

end Dict

end RagLeap
