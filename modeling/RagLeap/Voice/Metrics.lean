import RagLeap.Foundations.EditDistance

/-!
# Word and character errors

`edit_distance` (`ragleap_voice.bench.metrics`) keeps two rows of the table: it goes through the
reference and computes the row of each element from the row before. The row of the first `i`
elements holds the distances to every beginning of the hypothesis (`rows_column`), so the last value
of the last row is the Levenshtein distance (`editDistance_isLeast`).
-/

namespace RagLeap.Voice

variable {α : Type} [DecidableEq α]

/-- The loop over `ref`: `prev` is the row of the elements read so far, and `i` counts them. -/
def rows (hyp : List α) (i : ℕ) (prev : List ℕ) : List α → List ℕ
  | [] => prev
  | r :: ref => rows hyp (i + 1) (i :: rowFrom r i prev hyp) ref

/-- `edit_distance`. -/
def editDistance (ref hyp : List α) : ℕ :=
  if ref = [] then hyp.length else (rows hyp 1 (List.range (hyp.length + 1)) ref).getLastD 0

theorem range_eq_column (q hyp : List α) :
    List.range' q.length (hyp.length + 1) = column (editDist []) q hyp := by
  induction hyp generalizing q with
  | nil => simp [column, editDist_nil_left]
  | cons h hyp ih =>
    have hrest := ih (h :: q)
    rw [List.length_cons] at hrest
    rw [List.length_cons, List.range'_succ, hrest, column, editDist_nil_left]

/-- The row after the elements `s` were read, the last one first. -/
theorem rows_column (hyp s ref : List α) :
    rows hyp (s.length + 1) (column (editDist s) [] hyp) ref =
      column (editDist (ref.reverse ++ s)) [] hyp := by
  induction ref generalizing s with
  | nil => rfl
  | cons r ref ih =>
    have hleft : s.length + 1 = editDist (r :: s) [] := by
      rw [editDist_nil_right, List.length_cons]
    have hnext : (s.length + 1) :: rowFrom r (s.length + 1) (column (editDist s) [] hyp) hyp =
        column (editDist (r :: s)) [] hyp := by
      rw [hleft, rowFrom_column, ← column_eq_cons]
    rw [rows, hnext, List.reverse_cons, List.append_assoc, List.singleton_append]
    exact ih (r :: s)

theorem editDistance_eq (ref hyp : List α) : editDistance ref hyp = editDist ref hyp := by
  rw [editDistance]
  split_ifs with h
  · rw [h, editDist_nil_left]
  · have hfirst : List.range (hyp.length + 1) = column (editDist ([] : List α)) [] hyp := by
      rw [List.range_eq_range']
      exact range_eq_column [] hyp
    have hrows := rows_column hyp [] ref
    rw [List.length_nil, Nat.zero_add] at hrows
    rw [hfirst, hrows, getLast_column, List.append_nil, List.append_nil, editDist_reverse]

example : editDistance "kitten".toList "sitting".toList = 3 := by decide

/-- **`editDistance` is the Levenshtein distance.** It is the least number of insertions, deletions
and substitutions that turn one sequence into the other, and a distance. -/
theorem editDistance_isLeast :
    (∀ ref hyp : List α, IsLeast {n | Edits n ref hyp} (editDistance ref hyp)) ∧
      (∀ s t : List α, editDistance s t = editDistance t s) ∧
      (∀ s t u : List α, editDistance s u ≤ editDistance s t + editDistance t u) ∧
      ∀ s t : List α, editDistance s t = 0 ↔ s = t := by
  simp only [editDistance_eq]
  exact ⟨isLeast_editDist, editDist_comm, editDist_triangle, fun _ _ => editDist_eq_zero⟩

end RagLeap.Voice
