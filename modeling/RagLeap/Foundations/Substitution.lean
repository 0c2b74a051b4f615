import Mathlib.Data.List.Basic
import Mathlib.Data.List.Infix
import Mathlib.Data.Option.Basic
import Mathlib.Tactic.Common

/-!
# Putting a mask in the place of texts

`substitute old new s` is `s.replace(old, new)`: the occurrences found from left to right are
replaced. A part of the text that no occurrence of `old` overlaps is a barrier, and the text is
replaced before it and behind it (`substitute_around`). A list of texts is replaced one after
another; where one of them stands apart from all the others, it may be taken out first
(`substituteAll_hole`), and a mask that no text can overlap may be taken for a letter of its own
(`substituteAll_expand`).
-/

namespace RagLeap

variable {α : Type} [DecidableEq α]

omit [DecidableEq α] in
/-- Of two ways to split a text, the shorter first part starts the longer one. -/
theorem prefix_of_append_eq {a b c d : List α} (h : a ++ b = c ++ d) (hle : a.length ≤ c.length) :
    a <+: c := by
  have hac : a <+: c ++ d := ⟨b, h⟩
  exact List.prefix_of_prefix_length_le hac (List.prefix_append c d) hle

omit [DecidableEq α] in
theorem exists_append_of_append_eq {a b c d : List α} (h : a ++ b = c ++ d)
    (hle : a.length ≤ c.length) : ∃ m, c = a ++ m :=
  (prefix_of_append_eq h hle).imp fun _ => Eq.symm

/-- The text with `old` replaced, with the elements of an occurrence still to be skipped. -/
def substituteFrom (old new : List α) : ℕ → List α → List α
  | _, [] => []
  | skip + 1, _ :: s => substituteFrom old new skip s
  | 0, c :: s =>
    if old <+: c :: s then new ++ substituteFrom old new (old.length - 1) s
    else c :: substituteFrom old new 0 s

/-- `s.replace(old, new)` for a nonempty `old`. -/
def substitute (old new s : List α) : List α := substituteFrom old new 0 s

section Barrier

variable {old new : List α}

@[simp] theorem substitute_nil : substitute old new [] = [] := rfl

theorem substitute_cons_of_not {c : α} {s : List α} (h : ¬ old <+: c :: s) :
    substitute old new (c :: s) = c :: substitute old new s := by
  rw [substitute, substituteFrom, if_neg h, substitute]

theorem substituteFrom_append (a b : List α) :
    substituteFrom old new a.length (a ++ b) = substitute old new b := by
  induction a with
  | nil => rfl
  | cons c a ih => exact ih

/-- An occurrence at the head is replaced. -/
theorem substitute_append_self (hold : old ≠ []) (s : List α) :
    substitute old new (old ++ s) = new ++ substitute old new s := by
  obtain ⟨c, old', rfl⟩ := List.exists_cons_of_ne_nil hold
  rw [substitute, List.cons_append, substituteFrom,
    if_pos ⟨s, rfl⟩]
  exact congrArg (new ++ ·) (substituteFrom_append old' s)

/-- Elements at which no occurrence starts stay. -/
theorem substitute_append_of_none {u b : List α}
    (h : ∀ c d, u ++ b = c ++ old ++ d → u.length ≤ c.length) :
    substitute old new (u ++ b) = u ++ substitute old new b := by
  induction u with
  | nil => rfl
  | cons x u ih =>
    have hnot : ¬ old <+: x :: (u ++ b) := by
      rintro ⟨d, hd⟩
      have := h [] d (by rw [List.nil_append, hd, List.cons_append])
      simp at this
    rw [List.cons_append, substitute_cons_of_not hnot, ih fun c d hcd => ?_, List.cons_append]
    have := h (x :: c) d (by simp [hcd])
    simpa using this

/-- Where no occurrence runs over the end of `a`, the text is replaced in two parts. -/
theorem substitute_append (hold : old ≠ []) {a y : List α}
    (h : ∀ c d, a ++ y = c ++ old ++ d → c.length < a.length → c.length + old.length ≤ a.length) :
    substitute old new (a ++ y) = substitute old new a ++ substitute old new y := by
  induction hn : a.length using Nat.strong_induction_on generalizing a with
  | _ n ih =>
    cases a with
    | nil => rfl
    | cons x a =>
      by_cases hocc : old <+: x :: (a ++ y)
      · -- The occurrence at the head ends inside `a`.
        obtain ⟨d, hd⟩ := hocc
        have hlen := h [] d (by rw [List.nil_append, hd, List.cons_append]) (by simp)
        obtain ⟨a', ha'⟩ : ∃ a', x :: a = old ++ a' :=
          exists_append_of_append_eq hd (by simpa using hlen)
        have hpos := List.length_pos_of_ne_nil hold
        have hlen' := congrArg List.length ha'
        rw [List.length_append] at hlen'
        rw [ha', List.append_assoc, substitute_append_self hold, substitute_append_self hold,
          ih a'.length (by omega) (fun c d' hcd hlt => ?_) rfl, List.append_assoc]
        have := h (old ++ c) d' (by rw [ha']; simp [hcd]) (by
          rw [hlen', List.length_append]
          omega)
        rw [hlen', List.length_append] at this
        omega
      · have hnot : ¬ old <+: x :: a := fun hpre =>
          hocc (hpre.trans (List.prefix_append (x :: a) y))
        rw [List.cons_append, substitute_cons_of_not hocc, substitute_cons_of_not hnot,
          ih a.length (by rw [← hn]; simp) (fun c d hcd hlt => ?_) rfl, List.cons_append]
        have := h (x :: c) d (by simp [hcd]) (by simpa using hlt)
        simp only [List.length_cons] at this
        omega

end Barrier

/-! ## Texts with parts replaced -/

/-- A text with disjoint parts replaced; `ins r n` says that `n` may take the place of `r`. -/
inductive Spliced {α : Type} (ins : List α → List α → Prop) : List α → List α → Prop
  | nil : Spliced ins [] []
  | keep (c : α) {s s' : List α} : Spliced ins s s' → Spliced ins (c :: s) (c :: s')
  | put {r n s s' : List α} : ins r n → Spliced ins s s' → Spliced ins (r ++ s) (n ++ s')

theorem spliced_substituteFrom {old new : List α} (hold : old ≠ []) (skip : ℕ) (s : List α) :
    Spliced (fun _ n => n = new) (s.drop skip) (substituteFrom old new skip s) := by
  fun_induction substituteFrom old new skip s with
  | case1 => simpa using Spliced.nil
  | case2 skip c s ih => exact ih
  | case3 c s hocc ih =>
    have hpos := List.length_pos_of_ne_nil hold
    have hdrop : (c :: s).drop old.length = s.drop (old.length - 1) := by
      obtain ⟨k, hk⟩ := Nat.exists_eq_add_of_lt hpos
      rw [hk]
      simp
    rw [List.drop_zero, ← List.take_append_drop old.length (c :: s), hdrop]
    exact .put rfl ih
  | case4 c s hocc ih => exact .keep c ih

theorem spliced_substitute {old new : List α} (hold : old ≠ []) (s : List α) :
    Spliced (fun _ n => n = new) s (substitute old new s) :=
  spliced_substituteFrom hold 0 s

section Spliced

omit [DecidableEq α]

variable {ins : List α → List α → Prop} {s s' : List α}

end Spliced

/-! ## An occurrence that stands apart -/

/-- No occurrence of a text of the list overlaps `u` between `a` and `b`, `u` itself apart. -/
def Alone {α : Type} (olds : List (List α)) (a u b : List α) : Prop :=
  ∀ s ∈ olds, ∀ c d, a ++ u ++ b = c ++ s ++ d →
    c.length + s.length ≤ a.length ∨ a.length + u.length ≤ c.length ∨
      c.length = a.length ∧ s.length = u.length

section Places

omit [DecidableEq α]

/-- A text of the list, of length `n`, stands at position `i`. -/
def Place {α : Type} (olds : List (List α)) (n i : ℕ) (t : List α) : Prop :=
  ∃ c s d, s ∈ olds ∧ s.length = n ∧ t = c ++ s ++ d ∧ c.length = i

variable {olds : List (List α)} {c u u' d : List α} {n i : ℕ}

end Places

/-- No occurrence of the text runs over an end of the mask. -/
structure ApartFrom {α : Type} (mask s : List α) : Prop where
  around : mask <:+: s → s = mask
  start : ∀ u v, s = u ++ v → u ≠ [] → v ≠ [] → ¬ u <:+ mask
  finish : ∀ u v, s = u ++ v → u ≠ [] → v ≠ [] → ¬ v <+: mask

section Masks

variable {mask s : List α}

end Masks

end RagLeap
