import Mathlib.Data.List.Nodup
import Mathlib.Tactic.Common

/-!
# Two tables and the reference between them

A `Tables` holds parent rows with a unique key and child rows that refer to a parent that is
there; both constraints are fields, so tables that violate them cannot be built. An operation
gives its result and the tables it leaves, or `none` where a constraint refuses it. Deleting a
parent deletes its children.

`Tables.version` is what is stored under one key. Each operation has a lemma saying which versions
it leaves alone, and `Tables.Keeps` compares what is stored under a key before and after.
-/

namespace RagLeap

/-- Parent rows `ρ` with key `key`, and child rows `κ` referring to them by `ref`. -/
structure Tables {ι ρ κ : Type} (key : ρ → ι) (ref : κ → ι) where
  parents : List ρ
  children : List κ
  nodup : (parents.map key).Nodup
  foreign : ∀ c ∈ children, ref c ∈ parents.map key

namespace Tables

variable {ι ρ κ : Type} {key : ρ → ι} {ref : κ → ι}

/-- The keys in use. -/
def keys (t : Tables key ref) : List ι := t.parents.map key

/-- No rows. -/
def empty : Tables key ref := ⟨[], [], List.nodup_nil, nofun⟩

variable [DecidableEq ι]

/-- What is stored under a key. -/
def version (t : Tables key ref) (k : ι) : List ρ × List κ :=
  (t.parents.filter (key · = k), t.children.filter (ref · = k))

/-- All that `t` stores under a key is stored in `t'`. -/
def Keeps (t t' : Tables key ref) (k : ι) : Prop :=
  (t.version k).1 ⊆ t'.parents ∧ (t.version k).2 ⊆ t'.children

/-- Adds a parent row, unless its key is taken. -/
def insertParent (row : ρ) (t : Tables key ref) : Option (Unit × Tables key ref) :=
  if h : key row ∈ t.keys then none
  else some ((), {
    parents := t.parents ++ [row]
    children := t.children
    nodup := by
      rw [List.map_append, List.map_singleton, List.nodup_append]
      refine ⟨t.nodup, List.nodup_singleton _, ?_⟩
      rintro _ ha _ hb rfl
      exact h (List.mem_singleton.1 hb ▸ ha)
    foreign := fun c hc => by
      rw [List.map_append]
      exact List.mem_append_left _ (t.foreign c hc) })

/-- Adds a child row, if the parent it refers to is there. -/
def insertChild (row : κ) (t : Tables key ref) : Option (Unit × Tables key ref) :=
  if h : ref row ∈ t.keys then
    some ((), {
      parents := t.parents
      children := t.children ++ [row]
      nodup := t.nodup
      foreign := fun c hc => by
        rcases List.mem_append.1 hc with hc | hc
        · exact t.foreign c hc
        · exact List.mem_singleton.1 hc ▸ h })
  else none

/-- Deletes a parent row with its children; the result says whether it was there. -/
def deleteParent (k : ι) (t : Tables key ref) : Option (Bool × Tables key ref) :=
  some (decide (k ∈ t.keys), {
    parents := t.parents.filter (key · ≠ k)
    children := t.children.filter (ref · ≠ k)
    nodup := t.nodup.sublist (List.filter_sublist.map _)
    foreign := fun c hc => by
      obtain ⟨hc, hne⟩ := List.mem_filter.1 hc
      obtain ⟨row, hrow, hkey⟩ := List.mem_map.1 (t.foreign c hc)
      refine List.mem_map.2 ⟨row, List.mem_filter.2 ⟨hrow, ?_⟩, hkey⟩
      rwa [hkey] })

variable {t t' : Tables key ref} {k : ι}

/-! ## What is stored under a key -/

theorem version_eq_nil_iff : (t.version k).1 = [] ↔ k ∉ t.keys := by
  simp [version, keys, List.filter_eq_nil_iff]

/-- Nothing refers to a key that is not in use. -/
theorem version_eq_of_not_mem (h : k ∉ t.keys) : t.version k = ([], []) := by
  refine Prod.ext (version_eq_nil_iff.2 h) (List.filter_eq_nil_iff.2 fun c hc hk => h ?_)
  rw [← of_decide_eq_true hk]
  exact t.foreign c hc

theorem keeps_of_not_mem (h : k ∉ t.keys) (t' : Tables key ref) : t.Keeps t' k := by
  rw [Keeps, version_eq_of_not_mem h]
  exact ⟨List.nil_subset _, List.nil_subset _⟩

theorem keeps_of_version_eq (h : t'.version k = t.version k) : t.Keeps t' k := by
  rw [Keeps, ← h]
  exact ⟨List.filter_subset_self _, List.filter_subset_self _⟩

/-- Tables in which the key is not in use keep nothing of what was stored under it. -/
theorem not_keeps (h : k ∈ t.keys) (h' : k ∉ t'.keys) : ¬ t.Keeps t' k := by
  rintro ⟨hparents, -⟩
  obtain ⟨row, hrow, hkey⟩ := List.mem_map.1 h
  have hmem : row ∈ (t.version k).1 := List.mem_filter.2 ⟨hrow, decide_eq_true hkey⟩
  exact h' (List.mem_map.2 ⟨row, hparents hmem, hkey⟩)

/-! ## The operations -/

theorem insertParent_eq_some {row : ρ} {u : Unit} (h : t.insertParent row = some (u, t')) :
    key row ∉ t.keys ∧ t'.parents = t.parents ++ [row] ∧ t'.children = t.children := by
  unfold insertParent at h
  split at h
  case isTrue => cases h
  case isFalse hk =>
    cases h
    exact ⟨hk, rfl, rfl⟩

theorem insertChild_eq_some {row : κ} {u : Unit} (h : t.insertChild row = some (u, t')) :
    t'.parents = t.parents ∧ t'.children = t.children ++ [row] := by
  unfold insertChild at h
  split at h
  case isTrue =>
    cases h
    exact ⟨rfl, rfl⟩
  case isFalse => cases h

theorem deleteParent_eq_some {b : Bool} (h : t.deleteParent k = some (b, t')) :
    t'.parents = t.parents.filter (key · ≠ k) ∧ t'.children = t.children.filter (ref · ≠ k) := by
  cases h
  exact ⟨rfl, rfl⟩

theorem isSome_insertParent (row : ρ) (h : key row ∉ t.keys) : (t.insertParent row).isSome := by
  simp [insertParent, h]

theorem isSome_insertChild (row : κ) (h : ref row ∈ t.keys) : (t.insertChild row).isSome := by
  simp [insertChild, h]

theorem version_insertParent {row : ρ} {u : Unit} (h : t.insertParent row = some (u, t'))
    (hk : k ≠ key row) : t'.version k = t.version k := by
  obtain ⟨-, hparents, hchildren⟩ := insertParent_eq_some h
  simp [version, hparents, hchildren, List.filter_append, Ne.symm hk]

theorem version_insertChild {row : κ} {u : Unit} (h : t.insertChild row = some (u, t'))
    (hk : k ≠ ref row) : t'.version k = t.version k := by
  obtain ⟨hparents, hchildren⟩ := insertChild_eq_some h
  simp [version, hparents, hchildren, List.filter_append, Ne.symm hk]

theorem version_deleteParent {j : ι} {b : Bool} (h : t.deleteParent j = some (b, t'))
    (hk : k ≠ j) : t'.version k = t.version k := by
  obtain ⟨hparents, hchildren⟩ := deleteParent_eq_some h
  simp only [version, hparents, hchildren, List.filter_filter]
  congr 1 <;> refine List.filter_congr fun row _ => ?_
  · by_cases hrow : key row = k <;> simp [hrow, hk]
  · by_cases hrow : ref row = k <;> simp [hrow, hk]

theorem mem_keys_insertParent {row : ρ} {u : Unit} (h : t.insertParent row = some (u, t')) :
    key row ∈ t'.keys := by
  simp [keys, (insertParent_eq_some h).2.1]

theorem keys_insertChild {row : κ} {u : Unit} (h : t.insertChild row = some (u, t')) :
    t'.keys = t.keys := by
  rw [keys, (insertChild_eq_some h).1, keys]

/-- A deleted key is not in use. -/
theorem not_mem_keys_deleteParent {b : Bool} (h : t.deleteParent k = some (b, t')) :
    k ∉ t'.keys := by
  simp [keys, (deleteParent_eq_some h).1]

theorem keys_deleteParent_subset {b : Bool} (h : t.deleteParent k = some (b, t')) :
    t'.keys ⊆ t.keys := by
  rw [keys, (deleteParent_eq_some h).1]
  exact (List.filter_sublist.map _).subset

end Tables

end RagLeap
