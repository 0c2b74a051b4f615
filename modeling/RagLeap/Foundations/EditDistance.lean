import Mathlib.Order.Bounds.Basic
import Mathlib.Order.MinMax
import Mathlib.Tactic.Common

/-!
# Edits of lists

An `Edit` inserts, deletes or replaces one element; `Edits n s t` says that `n` of them lead from
`s` to `t`. The recursion `editDist` on both lists gives the least number (`isLeast_editDist`), and
so it is a distance.

The rows of the table of `editDist` are computed from each other: `column (editDist s) q hs` is the
row of `s`, one value for each list that `q` grows to, and `rowFrom_column` makes the row of
`r :: s` from it.
-/

namespace RagLeap

variable {α : Type}

/-- An insertion, a deletion or a substitution. -/
inductive Edit : List α → List α → Prop
  | insert (p : List α) (a : α) (q : List α) : Edit (p ++ q) (p ++ a :: q)
  | delete (p : List α) (a : α) (q : List α) : Edit (p ++ a :: q) (p ++ q)
  | replace (p : List α) (a b : α) (q : List α) : Edit (p ++ a :: q) (p ++ b :: q)

/-- Edits one after the other. -/
inductive Edits : ℕ → List α → List α → Prop
  | refl (s : List α) : Edits 0 s s
  | step {n : ℕ} {s t u : List α} : Edits n s t → Edit t u → Edits (n + 1) s u

theorem Edit.symm {s t : List α} (h : Edit s t) : Edit t s := by
  cases h with
  | insert p a q => exact .delete p a q
  | delete p a q => exact .insert p a q
  | replace p a b q => exact .replace p b a q

theorem Edit.cons (c : α) {s t : List α} (h : Edit s t) : Edit (c :: s) (c :: t) := by
  cases h with
  | insert p a q => exact .insert (c :: p) a q
  | delete p a q => exact .delete (c :: p) a q
  | replace p a b q => exact .replace (c :: p) a b q

theorem Edit.reverse {s t : List α} (h : Edit s t) : Edit s.reverse t.reverse := by
  cases h with
  | insert p a q => simpa using Edit.insert q.reverse a p.reverse
  | delete p a q => simpa using Edit.delete q.reverse a p.reverse
  | replace p a b q => simpa using Edit.replace q.reverse a b p.reverse

namespace Edits

variable {m n : ℕ} {s t u : List α}

theorem one (h : Edit s t) : Edits 1 s t := .step (.refl s) h

theorem trans (h : Edits m s t) (h' : Edits n t u) : Edits (m + n) s u := by
  induction h' with
  | refl t => exact h
  | step _ hedit ih => exact .step (ih h) hedit

theorem symm (h : Edits n s t) : Edits n t s := by
  induction h with
  | refl s => exact .refl s
  | @step n s t u _ hedit ih =>
    rw [Nat.add_comm]
    exact (one hedit.symm).trans ih

theorem cons (c : α) (h : Edits n s t) : Edits n (c :: s) (c :: t) := by
  induction h with
  | refl s => exact .refl (c :: s)
  | step _ hedit ih => exact .step ih (hedit.cons c)

theorem reverse (h : Edits n s t) : Edits n s.reverse t.reverse := by
  induction h with
  | refl s => exact .refl s.reverse
  | step _ hedit ih => exact .step ih hedit.reverse

theorem eq_of_zero (h : Edits 0 s t) : s = t := by
  cases h
  rfl

theorem of_nil (t : List α) : Edits t.length [] t := by
  induction t with
  | nil => exact .refl []
  | cons b t ih => exact .step ih (.insert [] b t)

end Edits

section Recursion

variable [DecidableEq α]

/-- The recursion of the edit distance. -/
def editDist : List α → List α → ℕ
  | [], t => t.length
  | a :: s, [] => (a :: s).length
  | a :: s, b :: t =>
    min (min (editDist s (b :: t) + 1) (editDist (a :: s) t + 1))
      (editDist s t + if a = b then 0 else 1)
  termination_by s t => s.length + t.length

theorem editDist_nil_left (t : List α) : editDist [] t = t.length := by
  rw [editDist]

theorem editDist_nil_right (s : List α) : editDist s [] = s.length := by
  cases s with
  | nil => rw [editDist_nil_left]
  | cons a s => rw [editDist]

theorem editDist_cons_cons (a b : α) (s t : List α) :
    editDist (a :: s) (b :: t) =
      min (min (editDist s (b :: t) + 1) (editDist (a :: s) t + 1))
        (editDist s t + if a = b then 0 else 1) := by
  rw [editDist]

/-- So many edits are enough. -/
theorem edits_editDist (s t : List α) : Edits (editDist s t) s t := by
  fun_induction editDist s t with
  | case1 t => exact .of_nil t
  | case2 a s => exact (Edits.of_nil (a :: s)).symm
  | case3 a s b t ihdel ihins ihrep =>
    have hdel : Edits (editDist s (b :: t) + 1) (a :: s) (b :: t) := by
      rw [Nat.add_comm]
      exact (Edits.one (.delete [] a s)).trans ihdel
    have hins : Edits (editDist (a :: s) t + 1) (a :: s) (b :: t) := .step ihins (.insert [] b t)
    have hrep : Edits (editDist s t + if a = b then 0 else 1) (a :: s) (b :: t) := by
      by_cases hab : a = b
      · subst hab
        simpa using ihrep.cons a
      · rw [if_neg hab]
        exact .step (ihrep.cons a) (.replace [] a b t)
    rcases min_choice (min (editDist s (b :: t) + 1) (editDist (a :: s) t + 1))
      (editDist s t + if a = b then 0 else 1) with h | h
    · rw [h]
      rcases min_choice (editDist s (b :: t) + 1) (editDist (a :: s) t + 1) with h' | h'
      · rwa [h']
      · rwa [h']
    · rwa [h]

/-! ### One edit changes the distance by at most one -/

theorem editDist_cons_left_le (a : α) (s t : List α) :
    editDist (a :: s) t ≤ editDist s t + 1 := by
  cases t with
  | nil => simp [editDist_nil_right]
  | cons b t =>
    rw [editDist_cons_cons]
    omega

theorem editDist_cons_right_le (s : List α) (b : α) (t : List α) :
    editDist s (b :: t) ≤ editDist s t + 1 := by
  cases s with
  | nil => simp [editDist_nil_left]
  | cons a s =>
    rw [editDist_cons_cons]
    omega

theorem editDist_le_cons_right (s : List α) (b : α) (t : List α) :
    editDist s t ≤ editDist s (b :: t) + 1 := by
  induction s with
  | nil =>
    simp only [editDist_nil_left, List.length_cons]
    omega
  | cons a s ih =>
    have hle := editDist_cons_left_le a s t
    rw [editDist_cons_cons]
    omega

theorem editDist_replace_le (s : List α) (b c : α) (t : List α) :
    editDist s (c :: t) ≤ editDist s (b :: t) + 1 := by
  induction s with
  | nil => simp [editDist_nil_left]
  | cons a s ih =>
    rw [editDist_cons_cons a c, editDist_cons_cons a b]
    split_ifs <;> omega

theorem editDist_cons_le {t u : List α} (h : ∀ s, editDist s u ≤ editDist s t + 1) (c : α)
    (s : List α) : editDist s (c :: u) ≤ editDist s (c :: t) + 1 := by
  induction s with
  | nil =>
    have hlen := h []
    simp only [editDist_nil_left, List.length_cons] at hlen ⊢
    omega
  | cons a s ih =>
    have hsame := h s
    have hmore := h (a :: s)
    rw [editDist_cons_cons a c, editDist_cons_cons a c]
    omega

theorem editDist_append_le {t u : List α} (h : ∀ s, editDist s u ≤ editDist s t + 1)
    (p s : List α) : editDist s (p ++ u) ≤ editDist s (p ++ t) + 1 := by
  induction p generalizing s with
  | nil => exact h s
  | cons c p ih => exact editDist_cons_le ih c s

theorem editDist_edit_le {t u : List α} (h : Edit t u) (s : List α) :
    editDist s u ≤ editDist s t + 1 := by
  cases h with
  | insert p a q => exact editDist_append_le (fun s => editDist_cons_right_le s a q) p s
  | delete p a q => exact editDist_append_le (fun s => editDist_le_cons_right s a q) p s
  | replace p a b q => exact editDist_append_le (fun s => editDist_replace_le s a b q) p s

theorem editDist_self (s : List α) : editDist s s = 0 := by
  induction s with
  | nil => rw [editDist_nil_left, List.length_nil]
  | cons a s ih =>
    rw [editDist_cons_cons, if_pos rfl, ih]
    omega

/-- Fewer edits are not enough. -/
theorem editDist_le_of_edits {n : ℕ} {s t : List α} (h : Edits n s t) : editDist s t ≤ n := by
  induction h with
  | refl s => rw [editDist_self]
  | @step n s t u _ hedit ih =>
    have hle := editDist_edit_le hedit s
    omega

/-- **The edit distance is the least number of edits.** -/
theorem isLeast_editDist (s t : List α) : IsLeast {n | Edits n s t} (editDist s t) :=
  ⟨edits_editDist s t, fun _ h => editDist_le_of_edits h⟩

theorem editDist_comm (s t : List α) : editDist s t = editDist t s :=
  le_antisymm (editDist_le_of_edits (edits_editDist t s).symm)
    (editDist_le_of_edits (edits_editDist s t).symm)

theorem editDist_triangle (s t u : List α) : editDist s u ≤ editDist s t + editDist t u :=
  editDist_le_of_edits ((edits_editDist s t).trans (edits_editDist t u))

theorem editDist_eq_zero {s t : List α} : editDist s t = 0 ↔ s = t := by
  constructor
  · intro h
    have hedits := edits_editDist s t
    rw [h] at hedits
    exact hedits.eq_of_zero
  · rintro rfl
    exact editDist_self s

theorem editDist_reverse (s t : List α) : editDist s.reverse t.reverse = editDist s t := by
  refine le_antisymm (editDist_le_of_edits (edits_editDist s t).reverse) ?_
  refine editDist_le_of_edits ?_
  simpa using (edits_editDist s.reverse t.reverse).reverse

/-! ### Rows of the table -/

/-- The values of `f` at the lists that `q` grows to. -/
def column (f : List α → ℕ) (q : List α) : List α → List ℕ
  | [] => [f q]
  | h :: hs => f q :: column f (h :: q) hs

omit [DecidableEq α] in
theorem column_eq_cons (f : List α → ℕ) (q hs : List α) :
    column f q hs = f q :: (column f q hs).tail := by
  cases hs <;> rfl

omit [DecidableEq α] in
theorem getLast_column (f : List α → ℕ) (q hs : List α) (d : ℕ) :
    (column f q hs).getLastD d = f (hs.reverse ++ q) := by
  induction hs generalizing q d with
  | nil => rfl
  | cons h hs ih =>
    rw [column, List.getLastD_cons, ih, List.reverse_cons, List.append_assoc,
      List.singleton_append]

/-- The rest of a row, from the value to the left and the row above. -/
def rowFrom (r : α) (left : ℕ) : List ℕ → List α → List ℕ
  | diag :: up :: above, h :: hs =>
    let v := min (min (up + 1) (left + 1)) (diag + if r = h then 0 else 1)
    v :: rowFrom r v (up :: above) hs
  | _, _ => []

/-- **The next row.** -/
theorem rowFrom_column (r : α) (s q hs : List α) :
    rowFrom r (editDist (r :: s) q) (column (editDist s) q hs) hs =
      (column (editDist (r :: s)) q hs).tail := by
  induction hs generalizing q with
  | nil => rfl
  | cons h hs ih =>
    have hvalue := editDist_cons_cons r h s q
    rw [column, column_eq_cons (editDist s) (h :: q) hs, rowFrom, ← column_eq_cons, ← hvalue, ih,
      column, List.tail_cons, ← column_eq_cons]

end Recursion

end RagLeap
