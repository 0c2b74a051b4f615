import Mathlib

/-!
# Parts joined with a separator

`[x].intercalate ls` puts the element `x` between the parts of `ls`. The parts can be told from the
whole when they do not contain `x` themselves; `joins_uniquely_iff` is the converse too: as soon as
one of two or more parts contains `x`, as many other parts make up the same whole.
-/

namespace RagLeap

variable {α : Type} [DecidableEq α] {x : α}

omit [DecidableEq α] in
theorem intercalate_cons {l : List α} {ls : List (List α)} (h : ls ≠ []) :
    [x].intercalate (l :: ls) = l ++ x :: [x].intercalate ls := by
  obtain ⟨l', ls, rfl⟩ := List.exists_cons_of_ne_nil h
  simp [List.intercalate, List.intersperse]

/-- The separator occurs between the parts and inside them. -/
theorem count_intercalate {ls : List (List α)} (h : ls ≠ []) :
    ([x].intercalate ls).count x + 1 = (ls.map (List.count x)).sum + ls.length := by
  induction ls with
  | nil => exact absurd rfl h
  | cons l ls ih =>
    by_cases hls : ls = []
    · subst hls
      simp [List.intercalate]
    · have := ih hls
      rw [intercalate_cons hls, List.count_append, List.count_cons_self, List.map_cons,
        List.sum_cons, List.length_cons]
      omega

theorem sum_count_eq_zero_iff {ls : List (List α)} :
    (ls.map (List.count x)).sum = 0 ↔ ∀ l ∈ ls, x ∉ l := by
  rw [List.sum_eq_zero_iff_forall_eq_nat, List.forall_mem_map]
  exact forall₂_congr fun _ _ => List.count_eq_zero

/-- Parts without the separator are found again, by their number alone. -/
theorem eq_of_intercalate_eq {ls ls' : List (List α)} (hfree : ∀ l ∈ ls, x ∉ l)
    (hlength : ls'.length = ls.length) (h : [x].intercalate ls' = [x].intercalate ls) :
    ls' = ls := by
  by_cases hls : ls = []
  · subst hls
    exact List.length_eq_zero_iff.1 hlength
  · have hls' : ls' ≠ [] := fun hnil => by
      rw [hnil, List.length_nil] at hlength
      exact hls (List.length_eq_zero_iff.1 hlength.symm)
    have hsum := sum_count_eq_zero_iff.2 hfree
    have hcount := count_intercalate (x := x) hls
    have hcount' := count_intercalate (x := x) hls'
    rw [h] at hcount'
    have hfree' : ∀ l ∈ ls', x ∉ l := sum_count_eq_zero_iff.1 (by omega)
    rw [← List.splitOn_intercalate x hfree' hls', h, List.splitOn_intercalate x hfree hls]

/-- A text with at least `n` separators is that of `n + 1` parts. -/
theorem exists_parts (n : ℕ) {s : List α} (h : n ≤ s.count x) :
    ∃ ls : List (List α), ls.length = n + 1 ∧ [x].intercalate ls = s := by
  induction n generalizing s with
  | zero => exact ⟨[s], rfl, by simp [List.intercalate]⟩
  | succ n ih =>
    have hmem : x ∈ s := List.count_pos_iff.1 (by omega)
    obtain ⟨a, b, rfl, ha⟩ := List.eq_append_cons_of_mem hmem
    rw [List.count_append, List.count_cons_self, List.count_eq_zero.2 ha] at h
    obtain ⟨ls, hlength, hb⟩ := ih (s := b) (by omega)
    have hne : ls ≠ [] := List.ne_nil_of_length_eq_add_one hlength
    exact ⟨a :: ls, by rw [List.length_cons, hlength], by rw [intercalate_cons hne, hb]⟩

/-- Two parts or more, one of them with the separator: others make up the same whole. -/
theorem exists_ne_of_mem {ls : List (List α)} (hlength : 2 ≤ ls.length) {l : List α} (hl : l ∈ ls)
    (hx : x ∈ l) :
    ∃ ls', ls'.length = ls.length ∧ [x].intercalate ls' = [x].intercalate ls ∧ ls' ≠ ls := by
  obtain ⟨f, rest, rfl⟩ := List.exists_cons_of_ne_nil (by rintro rfl; simp at hlength : ls ≠ [])
  rw [List.length_cons] at hlength
  have hrest : rest ≠ [] := by rintro rfl; simp at hlength
  have hcount := count_intercalate (x := x) hrest
  rcases List.mem_cons.1 hl with rfl | hl
  · -- the first part ends at its first separator
    obtain ⟨a, b, rfl, -⟩ := List.eq_append_cons_of_mem hx
    obtain ⟨ls', hlength', heq⟩ := exists_parts (x := x) (rest.length - 1)
      (s := b ++ x :: [x].intercalate rest)
      (by rw [List.count_append, List.count_cons_self]; omega)
    have hne : ls' ≠ [] := List.ne_nil_of_length_eq_add_one hlength'
    refine ⟨a :: ls', by rw [List.length_cons, List.length_cons]; omega, ?_, fun h => ?_⟩
    · rw [intercalate_cons hne, intercalate_cons hrest, heq, List.append_assoc, List.cons_append]
    · simpa using (List.cons.inj h).1
  · -- the first part goes on to the next separator, and one of the rest makes up for it
    have hpos : 0 < (rest.map (List.count x)).sum :=
      Nat.pos_of_ne_zero fun h => sum_count_eq_zero_iff.1 h l hl hx
    have hmem : x ∈ [x].intercalate rest := List.count_pos_iff.1 (by omega)
    obtain ⟨a, b, hab, ha⟩ := List.eq_append_cons_of_mem hmem
    have hb : b.count x + 1 = ([x].intercalate rest).count x := by
      rw [hab, List.count_append, List.count_cons_self, List.count_eq_zero.2 ha]
      omega
    obtain ⟨ls', hlength', heq⟩ := exists_parts (x := x) (rest.length - 1) (s := b) (by omega)
    have hne : ls' ≠ [] := List.ne_nil_of_length_eq_add_one hlength'
    refine ⟨(f ++ x :: a) :: ls', by rw [List.length_cons, List.length_cons]; omega, ?_,
      fun h => ?_⟩
    · rw [intercalate_cons hne, intercalate_cons hrest, heq, hab, List.append_assoc,
        List.cons_append]
    · simpa using (List.cons.inj h).1

theorem joins_uniquely_iff {ls : List (List α)} (hlength : 2 ≤ ls.length) :
    (∀ ls' : List (List α), ls'.length = ls.length → [x].intercalate ls' = [x].intercalate ls →
      ls' = ls) ↔ ∀ l ∈ ls, x ∉ l := by
  constructor
  · intro h l hl hx
    obtain ⟨ls', hlength', heq, hne⟩ := exists_ne_of_mem hlength hl hx
    exact hne (h ls' hlength' heq)
  · exact fun hfree ls' => eq_of_intercalate_eq hfree

end RagLeap
