import Mathlib.Data.List.Basic
import Mathlib.Tactic.Common

/-!
# Words

`wordsOf p s` lists the longest parts of `s` without separators, which are the elements that `p`
holds of. Separators at the ends of a text are in no word (`wordsOf_append`, `wordsOf_leading`,
`wordsOf_suffix`), and the words hold just the other elements, in their order (`flatten_wordsOf`).
-/

namespace RagLeap

variable {α : Type}

/-- The words of a text. -/
def wordsOf (p : α → Bool) (s : List α) : List (List α) := (s.splitOnP p).filter (· ≠ [])

section Words

variable {p q : α → Bool} {s a b : List α} {c : α}

@[simp] theorem wordsOf_nil : wordsOf p ([] : List α) = [] := rfl

/-- A separator ends a word. -/
theorem wordsOf_append_cons (hc : p c = true) (a b : List α) :
    wordsOf p (a ++ c :: b) = wordsOf p a ++ wordsOf p b := by
  rw [wordsOf, List.splitOnP_append_cons a b hc, List.filter_append]
  rfl

theorem wordsOf_cons (hc : p c = true) (s : List α) : wordsOf p (c :: s) = wordsOf p s :=
  wordsOf_append_cons hc [] s

theorem wordsOf_singleton (hs : s ≠ []) (h : ∀ c ∈ s, p c = false) : wordsOf p s = [s] := by
  rw [wordsOf, List.splitOnP_eq_singleton h]
  simp [hs]

theorem wordsOf_leading (ha : ∀ c ∈ a, p c = true) (s : List α) :
    wordsOf p (a ++ s) = wordsOf p s := by
  induction a with
  | nil => rfl
  | cons c a ih =>
    rw [List.cons_append, wordsOf_cons (ha c List.mem_cons_self)]
    exact ih fun d hd => ha d (List.mem_cons_of_mem c hd)

theorem wordsOf_suffix (ha : ∀ c ∈ a, p c = true) (s : List α) :
    wordsOf p (s ++ a) = wordsOf p s := by
  cases a with
  | nil => rw [List.append_nil]
  | cons c a =>
    have hnil := wordsOf_leading (fun d hd => ha d (List.mem_cons_of_mem c hd)) []
    rw [List.append_nil] at hnil
    rw [wordsOf_append_cons (ha c List.mem_cons_self), hnil]
    exact List.append_nil _

/-- The words depend on which elements of the text are separators. -/
theorem wordsOf_congr (h : ∀ c ∈ s, p c = q c) : wordsOf p s = wordsOf q s := by
  have hsplit : s.splitOnP p = s.splitOnP q := by
    induction s with
    | nil => rfl
    | cons c s ih =>
      rw [List.splitOnP_cons_eq_if_modifyHead, List.splitOnP_cons_eq_if_modifyHead,
        h c List.mem_cons_self, ih fun d hd => h d (List.mem_cons_of_mem c hd)]
  rw [wordsOf, wordsOf, hsplit]

theorem flatten_splitOnP (s : List α) : (s.splitOnP p).flatten = s.filter fun c => !p c := by
  induction s with
  | nil => rfl
  | cons c s ih =>
    rw [List.splitOnP_cons_eq_if_modifyHead]
    by_cases hc : p c = true
    · rw [if_pos hc, List.flatten_cons, List.nil_append, ih, List.filter_cons_of_neg (by simp [hc])]
    · rw [if_neg hc, List.filter_cons_of_pos (by simp [hc]), ← ih]
      obtain ⟨w, ws, hws⟩ := List.exists_cons_of_ne_nil (List.splitOnP_ne_nil p s)
      rw [hws]
      rfl

/-- **The words hold the elements that are no separators.** -/
theorem flatten_wordsOf (s : List α) : (wordsOf p s).flatten = s.filter fun c => !p c := by
  have hdrop : ∀ l : List (List α), (l.filter (· ≠ [])).flatten = l.flatten := by
    intro l
    induction l with
    | nil => rfl
    | cons w l ih =>
      by_cases hw : w = []
      · rw [List.filter_cons_of_neg (by simp [hw]), ih, hw, List.flatten_cons, List.nil_append]
      · rw [List.filter_cons_of_pos (by simp [hw]), List.flatten_cons, List.flatten_cons, ih]
  rw [wordsOf, hdrop, flatten_splitOnP]

theorem ne_nil_of_mem_wordsOf {w : List α} (h : w ∈ wordsOf p s) : w ≠ [] := by
  simpa using (List.mem_filter.1 h).2

theorem not_of_mem_wordsOf {w : List α} (h : w ∈ wordsOf p s) (hc : c ∈ w) : p c = false := by
  have hmem : c ∈ (wordsOf p s).flatten := List.mem_flatten.2 ⟨w, h, hc⟩
  rw [flatten_wordsOf] at hmem
  simpa using (List.mem_filter.1 hmem).2

theorem wordsOf_eq_nil_iff : wordsOf p s = [] ↔ ∀ c ∈ s, p c = true := by
  constructor
  · intro h c hc
    by_contra hp
    have hmem : c ∈ (wordsOf p s).flatten := by
      rw [flatten_wordsOf]
      exact List.mem_filter.2 ⟨hc, by simpa using hp⟩
    rw [h] at hmem
    exact nomatch hmem
  · intro h
    have hnil := wordsOf_leading h []
    rwa [List.append_nil] at hnil

/-- Between two words stands a separator. -/
theorem length_wordsOf_le (s : List α) : 2 * (wordsOf p s).length ≤ s.length + 1 := by
  have hsum : ((s.splitOnP p).map fun w => w.length + 1).sum = s.length + 1 := by
    induction s with
    | nil => rfl
    | cons c s ih =>
      rw [List.splitOnP_cons_eq_if_modifyHead]
      by_cases hc : p c = true
      · rw [if_pos hc, List.map_cons, List.sum_cons, ih, List.length_cons, List.length_nil]
        omega
      · rw [if_neg hc]
        obtain ⟨w, ws, hws⟩ := List.exists_cons_of_ne_nil (List.splitOnP_ne_nil p s)
        rw [hws, List.map_cons, List.sum_cons] at ih
        rw [hws, List.modifyHead_cons, List.map_cons, List.sum_cons, List.length_cons,
          List.length_cons]
        omega
  have hfilter : ∀ l : List (List α),
      2 * (l.filter (· ≠ [])).length ≤ (l.map fun w => w.length + 1).sum := by
    intro l
    induction l with
    | nil => exact Nat.le_refl 0
    | cons w l ih =>
      rw [List.map_cons, List.sum_cons]
      by_cases hw : w = []
      · rw [List.filter_cons_of_neg (by simp [hw])]
        omega
      · rw [List.filter_cons_of_pos (by simp [hw]), List.length_cons]
        have hpos := List.length_pos_of_ne_nil hw
        omega
  exact hsum ▸ hfilter _

end Words

end RagLeap
