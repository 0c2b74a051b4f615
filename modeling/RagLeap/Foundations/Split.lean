import Mathlib.Data.List.Basic
import Mathlib.Data.List.Infix
import Mathlib.Tactic.Common

/-!
# Splitting at a text

`split sep s` is `s.split(sep)` for a nonempty `sep`: the parts between the occurrences found from
left to right. Put together with `sep` between them, the parts are the text again.
-/

namespace RagLeap

variable {α : Type} [DecidableEq α]

/-- The parts of a text, with the elements of an occurrence still to be skipped. -/
def splitFrom (sep : List α) : ℕ → List α → List (List α)
  | _, [] => [[]]
  | skip + 1, _ :: s => splitFrom sep skip s
  | 0, c :: s =>
    if sep <+: c :: s then [] :: splitFrom sep (sep.length - 1) s
    else (splitFrom sep 0 s).modifyHead (c :: ·)

/-- `s.split(sep)`. -/
def split (sep s : List α) : List (List α) := splitFrom sep 0 s

theorem splitFrom_ne_nil (sep : List α) (skip : ℕ) (s : List α) : splitFrom sep skip s ≠ [] := by
  fun_induction splitFrom sep skip s with
  | case1 => simp
  | case2 skip _ s ih => exact ih
  | case3 c s h ih => simp
  | case4 c s h ih =>
    intro hnil
    exact ih (List.modifyHead_eq_nil_iff.1 hnil)

theorem split_ne_nil (sep s : List α) : split sep s ≠ [] := splitFrom_ne_nil sep 0 s

theorem splitFrom_drop (sep : List α) (skip : ℕ) (s : List α) :
    splitFrom sep skip s = splitFrom sep 0 (s.drop skip) := by
  induction skip generalizing s with
  | zero => simp
  | succ skip ih =>
    cases s with
    | nil => simp [splitFrom]
    | cons c s => rw [splitFrom, ih, List.drop_succ_cons]

/-- An occurrence at the head ends an empty part. -/
theorem split_append {sep : List α} (hsep : sep ≠ []) (s : List α) :
    split sep (sep ++ s) = [] :: split sep s := by
  obtain ⟨c, sep', rfl⟩ := List.exists_cons_of_ne_nil hsep
  rw [split, List.cons_append, splitFrom, if_pos (by rw [← List.cons_append]; simp),
    splitFrom_drop]
  simp [split]

theorem split_cons {sep : List α} {c : α} {s : List α} (h : ¬ sep <+: c :: s) :
    split sep (c :: s) = (split sep s).modifyHead (c :: ·) := by
  rw [split, splitFrom, if_neg h, split]

/-- Parts with `sep` between them. -/
def joinSep (sep : List α) : List (List α) → List α
  | [] => []
  | [p] => p
  | p :: q :: ps => p ++ sep ++ joinSep sep (q :: ps)

omit [DecidableEq α] in
theorem joinSep_cons {sep p : List α} {ps : List (List α)} (h : ps ≠ []) :
    joinSep sep (p :: ps) = p ++ sep ++ joinSep sep ps := by
  obtain ⟨q, qs, rfl⟩ := List.exists_cons_of_ne_nil h
  rfl

omit [DecidableEq α] in
theorem joinSep_modifyHead {sep : List α} {c : α} {ps : List (List α)} (h : ps ≠ []) :
    joinSep sep (ps.modifyHead (c :: ·)) = c :: joinSep sep ps := by
  obtain ⟨p, ps, rfl⟩ := List.exists_cons_of_ne_nil h
  cases ps <;> simp [joinSep]

/-- **The parts make up the text.** -/
theorem joinSep_split {sep : List α} (hsep : sep ≠ []) (s : List α) :
    joinSep sep (split sep s) = s := by
  induction hn : s.length using Nat.strong_induction_on generalizing s with
  | _ n ih =>
    cases s with
    | nil => rfl
    | cons c s =>
      by_cases h : sep <+: c :: s
      · obtain ⟨t, ht⟩ := h
        rw [← ht, split_append hsep, joinSep_cons (split_ne_nil sep t), List.nil_append]
        have hlen := congrArg List.length ht
        have hpos := List.length_pos_of_ne_nil hsep
        rw [List.length_append] at hlen
        rw [ih t.length (by omega) t rfl]
      · rw [split_cons h, joinSep_modifyHead (split_ne_nil sep s)]
        rw [List.length_cons] at hn
        rw [ih s.length (by omega) s rfl]

/-! ## The parts of a longer text -/

omit [DecidableEq α] in
theorem dropLast_modifyHead {β : Type} (f : β → β) (l : List β) :
    (l.modifyHead f).dropLast = l.dropLast.modifyHead f := by
  rcases l with _ | ⟨a, _ | ⟨b, l⟩⟩ <;> simp [List.modifyHead]

/-- A text shorter than the separator is one part. -/
theorem splitFrom_of_length_lt {sep s : List α} (h : s.length < sep.length) :
    splitFrom sep 0 s = [s] := by
  induction s with
  | nil => rfl
  | cons c s ih =>
    have hnot : ¬ sep <+: c :: s := fun hpre => by
      have := hpre.length_le
      omega
    rw [List.length_cons] at h
    rw [splitFrom, if_neg hnot, ih (by omega), List.modifyHead_cons]

theorem splitFrom_append (sep : List α) (skip : ℕ) (a b : List α) :
    ∃ l, l ≠ [] ∧ splitFrom sep skip (a ++ b) = (splitFrom sep skip a).dropLast ++ l := by
  fun_induction splitFrom sep skip a with
  | case1 skip => exact ⟨splitFrom sep skip b, splitFrom_ne_nil sep skip b, rfl⟩
  | case2 skip c a ih => exact ih
  | case3 c a hpre ih =>
    obtain ⟨l, hl, heq⟩ := ih
    have hpre' : sep <+: c :: (a ++ b) := hpre.trans (List.prefix_append (c :: a) b)
    refine ⟨l, hl, ?_⟩
    rw [List.cons_append, splitFrom, if_pos hpre', heq,
      List.dropLast_cons_of_ne_nil (splitFrom_ne_nil _ _ _), List.cons_append]
  | case4 c a hnot ih =>
    by_cases hpre : sep <+: c :: (a ++ b)
    · -- The occurrence runs over the end of the first text, which is a single part then.
      have hlen : (c :: a).length < sep.length := by
        by_contra hle
        have hle' : sep.length ≤ (c :: a).length := by omega
        exact hnot (List.prefix_of_prefix_length_le hpre (List.prefix_append (c :: a) b) hle')
      rw [List.length_cons] at hlen
      have hone : splitFrom sep 0 a = [a] := splitFrom_of_length_lt (by omega)
      refine ⟨_, splitFrom_ne_nil sep 0 ((c :: a) ++ b), ?_⟩
      rw [hone, List.modifyHead_cons, List.dropLast_singleton, List.nil_append]
    · obtain ⟨l, hl, heq⟩ := ih
      rw [List.cons_append, splitFrom, if_neg hpre, heq, dropLast_modifyHead]
      cases (splitFrom sep 0 a).dropLast with
      | nil => exact ⟨l.modifyHead (c :: ·), by simpa using hl, rfl⟩
      | cons p ps => exact ⟨l, hl, rfl⟩

/-- **Of a longer text, all parts but the last stay.** -/
theorem split_append_left (sep a b : List α) :
    ∃ l, l ≠ [] ∧ split sep (a ++ b) = (split sep a).dropLast ++ l :=
  splitFrom_append sep 0 a b

/-- An element that is not of the separator goes to the last part. -/
theorem dropLast_split_concat {sep : List α} (hsep : sep ≠ []) {x : α} (hx : x ∉ sep) (a : List α) :
    (split sep (a ++ [x])).dropLast = (split sep a).dropLast := by
  have h : ∀ skip, (splitFrom sep skip (a ++ [x])).dropLast = (splitFrom sep skip a).dropLast := by
    intro skip
    fun_induction splitFrom sep skip a with
    | case1 skip =>
      have hnot : ¬ sep <+: [x] := by
        rintro ⟨t, ht⟩
        obtain ⟨c, sep', rfl⟩ := List.exists_cons_of_ne_nil hsep
        obtain ⟨rfl, -⟩ := List.cons_eq_cons.1 ht
        exact hx List.mem_cons_self
      cases skip with
      | zero => rw [List.nil_append, splitFrom, if_neg hnot, dropLast_modifyHead]; rfl
      | succ skip => cases skip <;> rfl
    | case2 skip c a ih => exact ih
    | case3 c a hpre ih =>
      have hpre' : sep <+: c :: (a ++ [x]) := hpre.trans (List.prefix_append (c :: a) [x])
      rw [List.cons_append, splitFrom, if_pos hpre',
        List.dropLast_cons_of_ne_nil (splitFrom_ne_nil _ _ _), ih,
        List.dropLast_cons_of_ne_nil (splitFrom_ne_nil _ _ _)]
    | case4 c a hnot ih =>
      have hnot' : ¬ sep <+: c :: (a ++ [x]) := by
        intro hpre
        rw [← List.cons_append, List.prefix_concat_iff] at hpre
        rcases hpre with heq | hpre
        · exact hx (heq ▸ by simp)
        · exact hnot hpre
      rw [List.cons_append, splitFrom, if_neg hnot', dropLast_modifyHead, ih, dropLast_modifyHead]
  exact h 0

omit [DecidableEq α] in
theorem joinSep_append {sep : List α} {l m : List (List α)} (hl : l ≠ []) (hm : m ≠ []) :
    joinSep sep (l ++ m) = joinSep sep l ++ sep ++ joinSep sep m := by
  induction l with
  | nil => exact absurd rfl hl
  | cons p l ih =>
    rw [List.cons_append, joinSep_cons (by simp [hm])]
    cases l with
    | nil => rfl
    | cons q l =>
      rw [ih (List.cons_ne_nil q l), joinSep_cons (List.cons_ne_nil q l)]
      simp

/-- Parts before the last one stand in the text with a separator after them. -/
theorem exists_of_prefix_dropLast {sep s : List α} {l : List (List α)} (hl : l ≠ [])
    (hsep : sep ≠ []) (h : l <+: (split sep s).dropLast) : ∃ t, s = joinSep sep l ++ sep ++ t := by
  obtain ⟨m, hm⟩ := h
  obtain ⟨p, hp⟩ : ∃ p, (split sep s).dropLast ++ [p] = split sep s :=
    ⟨_, List.dropLast_append_getLast (split_ne_nil sep s)⟩
  refine ⟨joinSep sep (m ++ [p]), ?_⟩
  rw [← joinSep_append hl (by simp), ← List.append_assoc, hm, hp, joinSep_split hsep]

omit [DecidableEq α] in
theorem joinSep_cons_eq_flatMap (sep p : List α) (ps : List (List α)) :
    joinSep sep (p :: ps) = p ++ ps.flatMap (sep ++ ·) := by
  induction ps generalizing p with
  | nil => simp [joinSep]
  | cons q ps ih => rw [joinSep, ih, List.flatMap_cons, List.append_assoc, List.append_assoc]

/-! ## A separator of one element -/

section Single

variable {z : α}

omit [DecidableEq α] in
theorem not_singleton_isPrefix {c : α} {s : List α} (h : c ≠ z) : ¬ [z] <+: c :: s := fun hpre =>
  h (List.cons_prefix_cons.1 hpre).1.symm

theorem split_singleton_of_not_mem {p : List α} (h : z ∉ p) : split [z] p = [p] := by
  induction p with
  | nil => rfl
  | cons c p ih =>
    rw [List.mem_cons, not_or] at h
    rw [split_cons (not_singleton_isPrefix (Ne.symm h.1)), ih h.2, List.modifyHead_cons]

theorem split_singleton_append {p : List α} (h : z ∉ p) (s : List α) :
    split [z] (p ++ z :: s) = p :: split [z] s := by
  induction p with
  | nil => exact split_append (List.cons_ne_nil z []) s
  | cons c p ih =>
    rw [List.mem_cons, not_or] at h
    rw [List.cons_append, split_cons (not_singleton_isPrefix (Ne.symm h.1)), ih h.2,
      List.modifyHead_cons]

/-- **Parts without the separator are found again.** -/
theorem split_singleton_joinSep {ps : List (List α)} (hne : ps ≠ []) (h : ∀ p ∈ ps, z ∉ p) :
    split [z] (joinSep [z] ps) = ps := by
  induction ps with
  | nil => exact absurd rfl hne
  | cons p ps ih =>
    have hp := h p List.mem_cons_self
    cases ps with
    | nil => exact split_singleton_of_not_mem hp
    | cons q ps =>
      rw [joinSep, List.append_assoc, List.singleton_append, split_singleton_append hp,
        ih (List.cons_ne_nil q ps) fun r hr => h r (List.mem_cons_of_mem p hr)]

/-- Nonempty parts without the separator are determined by their join. -/
theorem eq_of_joinSep_eq {ps qs : List (List α)} (hp : ∀ p ∈ ps, p ≠ [] ∧ z ∉ p)
    (hq : ∀ p ∈ qs, p ≠ [] ∧ z ∉ p) (h : joinSep [z] ps = joinSep [z] qs) : ps = qs := by
  have hne : ∀ ps : List (List α), (∀ p ∈ ps, p ≠ [] ∧ z ∉ p) → ps ≠ [] → joinSep [z] ps ≠ [] := by
    intro ps hps hne
    obtain ⟨p, ps, rfl⟩ := List.exists_cons_of_ne_nil hne
    rw [joinSep_cons_eq_flatMap]
    simp [(hps p List.mem_cons_self).1]
  by_cases hps : ps = []
  · by_contra hdiff
    have hqs : qs ≠ [] := fun hnil => hdiff (hps.trans hnil.symm)
    rw [hps] at h
    exact hne qs hq hqs h.symm
  · have hqs : qs ≠ [] := by
      rintro rfl
      exact hne ps hp hps h
    rw [← split_singleton_joinSep hps fun p hmem => (hp p hmem).2, h,
      split_singleton_joinSep hqs fun p hmem => (hq p hmem).2]

/-- A text is what stands before its first `z`, that `z`, and the rest. -/
theorem takeWhile_append_tail {s : List α} (h : z ∈ s) :
    s.takeWhile (· ≠ z) ++ z :: (s.dropWhile (· ≠ z)).tail = s := by
  induction s with
  | nil => exact nomatch h
  | cons c s ih =>
    by_cases hc : c = z
    · simp [hc]
    · have hs := (List.mem_cons.1 h).resolve_left (Ne.symm hc)
      simpa [hc] using ih hs

end Single

end RagLeap
